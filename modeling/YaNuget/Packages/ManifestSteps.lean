import YaNuget.Data.Outcomes
import YaNuget.Packages.ManifestTree

/-!
# Steps of the manifest parser

What a tag does in each frame, what every step keeps, and what the walk over the
nodes of an element amounts to.
-/
namespace YaNuget.Manifest

open EventTrees Outcomes

section Attributes

theorem readAttributes_ok {items : List (Except String Attribute)} {count : ℕ}
    {init values : String → Option Text} (hcount : count ≤ maxAttributes)
    (h : readAttributes count items init = .ok values) :
    count + items.length ≤ maxAttributes ∧
      ∀ name, values name = (attributeValue items name).or (init name) := by
  induction items generalizing count init with
  | nil =>
    obtain rfl := Except.ok.inj h
    exact ⟨hcount, fun name => rfl⟩
  | cons item rest ih =>
    unfold readAttributes at h
    split at h
    · simp at h
    next hne =>
    split at h
    · simp at h
    · simp at h
    next key value =>
      obtain ⟨hlength, hvalues⟩ := ih (by omega) h
      refine ⟨by rw [List.length_cons]; omega, fun name => ?_⟩
      rw [hvalues, attributeValue, Option.or_assoc]
      congr 1
      split_ifs <;> rfl

theorem attributes_ok {e : Tag} {values : String → Option Text} (h : attributes e = .ok values) :
    e.attributes.length ≤ maxAttributes ∧ values = e.attribute := by
  obtain ⟨hlength, hvalues⟩ := readAttributes_ok (by decide) h
  refine ⟨by omega, funext fun name => ?_⟩
  rw [hvalues, Option.or_none]
  rfl

theorem namespaceOf_ok {ns : ResolveResult} {uri : Option Text} (h : namespaceOf ns = .ok uri) :
    uri = ns.uri := by
  cases ns with
  | bound ns => exact (Except.ok.inj h).symm
  | unbound => exact (Except.ok.inj h).symm
  | unknown ns => simp [namespaceOf] at h

theorem dependency_ok {e : Tag} {dep : Dependency} (h : dependency e = .ok dep) :
    e.attributes.length ≤ maxAttributes ∧ dep = readDependency e := by
  unfold dependency at h
  rw [bind_eq_ok] at h
  obtain ⟨values, hvalues, h⟩ := h
  obtain ⟨hlength, rfl⟩ := attributes_ok hvalues
  refine ⟨hlength, ?_⟩
  split at h
  · simp at h
  next id hid =>
    split at h
    · simp at h
    · rw [← Except.ok.inj h, readDependency, hid]
      rfl

end Attributes

section Frames

variable {s s' : State} {e : Tag} {frame : Frame} {name : String}

theorem once_ok (h : once s name = .ok s') :
    name ∉ s.seen ∧ s' = { s with seen := name :: s.seen } := by
  unfold once at h
  split at h
  · simp at h
  next hseen => exact ⟨hseen, (Except.ok.inj h).symm⟩

theorem once_attributes {α : Type} {made : State → (String → Option Text) → α} {a : α}
    (h : (once s name >>= fun s => attributes e >>= fun values => .ok (made s values)) = .ok a) :
    name ∉ s.seen ∧ e.attributes.length ≤ maxAttributes ∧
      made { s with seen := name :: s.seen } e.attribute = a := by
  rw [bind_eq_ok] at h
  obtain ⟨s₁, honce, h⟩ := h
  rw [bind_eq_ok] at h
  obtain ⟨values, hvalues, h⟩ := h
  obtain ⟨hseen, rfl⟩ := once_ok honce
  obtain ⟨hlength, rfl⟩ := attributes_ok hvalues
  exact ⟨hseen, hlength, Except.ok.inj h⟩

def licenseField (e : Tag) : Field :=
  if (e.attribute "type").map Text.lower = some "expression".toList then .licenseExpression
  else if (e.attribute "type").map Text.lower = some "file".toList then .licenseFile
  else .licenseOther

/-- What a child of the metadata is, and what its tag does. -/
inductive MetadataChild (s : State) (e : Tag) : Frame → State → Prop
  | field {name field} (hfield : (name, field) ∈ fields) (hname : e.localName = name)
    (hseen : name ∉ s.seen) : MetadataChild s e (.field field) { s with seen := name :: s.seen }
  | license (hname : e.localName = "license") (hseen : "license" ∉ s.seen) :
    MetadataChild s e (.field (licenseField e)) { s with seen := "license" :: s.seen }
  | repository (hname : e.localName = "repository") (hseen : "repository" ∉ s.seen) :
    MetadataChild s e .ignored { s with
      seen := "repository" :: s.seen
      nuspec := { s.nuspec with
        repositoryType := e.attribute "type", repositoryUrl := e.attribute "url" } }
  | dependencies (hname : e.localName = "dependencies") (hseen : "dependencies" ∉ s.seen) :
    MetadataChild s e .dependencies { s with seen := "dependencies" :: s.seen }
  | packageTypes (hname : e.localName = "packageTypes") (hseen : "packageTypes" ∉ s.seen) :
    MetadataChild s e .packageTypes { s with seen := "packageTypes" :: s.seen }
  | other (hname : e.localName ∉ onceNames) : MetadataChild s e .ignored s

theorem metadataChild_ok (h : metadataChild s e = .ok (frame, s')) :
    e.attributes.length ≤ maxAttributes ∧ MetadataChild s e frame s' := by
  unfold metadataChild at h
  split at h
  next name field hfind =>
    obtain ⟨hseen, hlength, heq⟩ := once_attributes h
    obtain ⟨rfl, rfl⟩ := Prod.mk.inj heq
    have hname : name = e.localName := by simpa using List.find?_some hfind
    exact ⟨hlength, .field (List.mem_of_find?_eq_some hfind) hname.symm hseen⟩
  next hfind =>
    split at h
    next hname =>
      obtain ⟨hseen, hlength, heq⟩ := once_attributes h
      obtain ⟨hframe, rfl⟩ := Prod.mk.inj heq
      have hlicense : frame = .field (licenseField e) := by
        rw [← hframe, licenseField]
        split_ifs <;> rfl
      rw [hlicense]
      exact ⟨hlength, .license hname hseen⟩
    next hname =>
      obtain ⟨hseen, hlength, heq⟩ := once_attributes h
      obtain ⟨rfl, rfl⟩ := Prod.mk.inj heq
      exact ⟨hlength, .repository hname hseen⟩
    next hname =>
      obtain ⟨hseen, hlength, heq⟩ := once_attributes h
      obtain ⟨rfl, rfl⟩ := Prod.mk.inj heq
      exact ⟨hlength, .dependencies hname hseen⟩
    next hname =>
      obtain ⟨hseen, hlength, heq⟩ := once_attributes h
      obtain ⟨rfl, rfl⟩ := Prod.mk.inj heq
      exact ⟨hlength, .packageTypes hname hseen⟩
    next hlicense hrepository hdependencies htypes =>
      rw [bind_eq_ok] at h
      obtain ⟨values, hvalues, h⟩ := h
      obtain ⟨rfl, rfl⟩ := Prod.mk.inj (Except.ok.inj h)
      have hother : e.localName ∉ onceNames := by
        rw [List.find?_eq_none] at hfind
        simp only [onceNames, List.mem_append, List.mem_map, List.mem_cons, List.not_mem_nil,
          or_false, not_or]
        refine ⟨?_, hlicense, hrepository, hdependencies, htypes⟩
        rintro ⟨entry, hentry, hname⟩
        exact hfind entry hentry (by simpa using hname)
      exact ⟨(attributes_ok hvalues).1, .other hother⟩

/-- The element has a place in the manifest under the frame. -/
def HasPlace (ns : Option Text) (e : Tag) : Frame → Prop
  | .root => e.localName = "metadata"
  | .metadata => e.ns.uri = ns
  | .field _ => True
  | .dependencies => e.ns.uri = ns ∧ (e.localName = "group" ∨ e.localName = "dependency")
  | .group _ => e.ns.uri = ns ∧ e.localName = "dependency"
  | .packageTypes => e.ns.uri = ns ∧ e.localName = "packageType"
  | .ignored => False

/-- The frame of an element under the open one, and what its tag does. -/
inductive Opens (s : State) (e : Tag) : Frame → State → Prop
  | root (htop : s.stack.head? = none) (hclosed : s.rootClosed = false) : Opens s e .root s
  | metadata (htop : s.stack.head? = some .root) (hname : e.localName = "metadata")
    (hseen : s.metadataSeen = false) : Opens s e .metadata { s with
      metadataSeen := true, metadataNs := e.defaultNs.uri
      nuspec := { s.nuspec with minClientVersion := e.attribute "minClientVersion" } }
  | child {opened s₁} (htop : s.stack.head? = some .metadata) (hns : e.ns.uri = s.metadataNs)
    (hchild : MetadataChild s e opened s₁) : Opens s e opened s₁
  | group {counts} (htop : s.stack.head? = some .dependencies) (hns : e.ns.uri = s.metadataNs)
    (hname : e.localName = "group") (hcounts : s.counts.addGroup = .ok counts) :
    Opens s e (.group s.nuspec.dependencyGroups.length) { s with
      counts := counts
      nuspec := { s.nuspec with dependencyGroups :=
        s.nuspec.dependencyGroups ++ [⟨e.attribute "targetFramework", []⟩] } }
  | ungrouped {counts} (htop : s.stack.head? = some .dependencies) (hns : e.ns.uri = s.metadataNs)
    (hname : e.localName = "dependency") (hcounts : s.counts.addDependency = .ok counts) :
    Opens s e .ignored { s with
      counts := counts, ungrouped := s.ungrouped ++ [readDependency e] }
  | dependency {index counts} (htop : s.stack.head? = some (.group index))
    (hns : e.ns.uri = s.metadataNs) (hname : e.localName = "dependency")
    (hcounts : s.counts.addDependency = .ok counts) :
    Opens s e .ignored { s with
      counts := counts
      nuspec := { s.nuspec with dependencyGroups := s.nuspec.dependencyGroups.modify index fun g =>
        { g with dependencies := g.dependencies ++ [readDependency e] } } }
  | packageType {counts} (htop : s.stack.head? = some .packageTypes)
    (hns : e.ns.uri = s.metadataNs) (hname : e.localName = "packageType")
    (hcounts : s.counts.addPackageType = .ok counts) : Opens s e .ignored { s with
      counts := counts
      nuspec := { s.nuspec with packageTypes := s.nuspec.packageTypes ++
        ((e.attribute "name").map fun name => ⟨name, e.attribute "version"⟩).toList } }
  | ignored {top} (htop : s.stack.head? = some top) (hplace : ¬ HasPlace s.metadataNs e top) :
    Opens s e .ignored s

theorem ignore_ok (h : ignore s e = .ok (frame, s')) :
    e.attributes.length ≤ maxAttributes ∧ frame = .ignored ∧ s' = s := by
  unfold ignore at h
  rw [bind_eq_ok] at h
  obtain ⟨values, hvalues, h⟩ := h
  obtain ⟨rfl, rfl⟩ := Prod.mk.inj (Except.ok.inj h)
  exact ⟨(attributes_ok hvalues).1, rfl, rfl⟩

theorem frameOf_outside (htop : s.stack.head? = none)
    (h : frameOf s e (e.ns.uri = s.metadataNs) = .ok (frame, s')) :
    e.attributes.length ≤ maxAttributes ∧ Opens s e frame s' := by
  simp only [frameOf, htop] at h
  split at h
  · simp at h
  next hclosed =>
    rw [bind_eq_ok] at h
    obtain ⟨values, hvalues, h⟩ := h
    obtain ⟨rfl, rfl⟩ := Prod.mk.inj (Except.ok.inj h)
    exact ⟨(attributes_ok hvalues).1, .root htop (by simpa using hclosed)⟩

theorem frameOf_root (htop : s.stack.head? = some .root)
    (h : frameOf s e (e.ns.uri = s.metadataNs) = .ok (frame, s')) :
    e.attributes.length ≤ maxAttributes ∧ Opens s e frame s' := by
  simp only [frameOf, htop] at h
  split at h
  next hname =>
    split at h
    · simp at h
    next hseen =>
      rw [bind_eq_ok] at h
      obtain ⟨ns, hns, h⟩ := h
      rw [bind_eq_ok] at h
      obtain ⟨values, hvalues, h⟩ := h
      obtain ⟨hlength, rfl⟩ := attributes_ok hvalues
      obtain rfl := namespaceOf_ok hns
      obtain ⟨rfl, rfl⟩ := Prod.mk.inj (Except.ok.inj h)
      exact ⟨hlength, .metadata htop hname (by simpa using hseen)⟩
  next hname =>
    obtain ⟨hlength, rfl, rfl⟩ := ignore_ok h
    exact ⟨hlength, .ignored htop hname⟩

theorem frameOf_metadata (htop : s.stack.head? = some .metadata)
    (h : frameOf s e (e.ns.uri = s.metadataNs) = .ok (frame, s')) :
    e.attributes.length ≤ maxAttributes ∧ Opens s e frame s' := by
  simp only [frameOf, htop] at h
  split at h
  next hns =>
    obtain ⟨hlength, hchild⟩ := metadataChild_ok h
    exact ⟨hlength, .child htop (by simpa using hns) hchild⟩
  next hns =>
    obtain ⟨hlength, rfl, rfl⟩ := ignore_ok h
    exact ⟨hlength, .ignored htop (by simpa [HasPlace] using hns)⟩

theorem frameOf_dependencies (htop : s.stack.head? = some .dependencies)
    (h : frameOf s e (e.ns.uri = s.metadataNs) = .ok (frame, s')) :
    e.attributes.length ≤ maxAttributes ∧ Opens s e frame s' := by
  simp only [frameOf, htop] at h
  split at h
  next hgroup =>
    simp only [Bool.and_eq_true, decide_eq_true_eq] at hgroup
    rw [bind_eq_ok] at h
    obtain ⟨counts, hcounts, h⟩ := h
    rw [bind_eq_ok] at h
    obtain ⟨values, hvalues, h⟩ := h
    obtain ⟨hlength, rfl⟩ := attributes_ok hvalues
    obtain ⟨rfl, rfl⟩ := Prod.mk.inj (Except.ok.inj h)
    exact ⟨hlength, .group htop hgroup.1 hgroup.2 hcounts⟩
  next hgroup =>
    split at h
    next hdependency =>
      simp only [Bool.and_eq_true, decide_eq_true_eq] at hdependency
      rw [bind_eq_ok] at h
      obtain ⟨counts, hcounts, h⟩ := h
      rw [bind_eq_ok] at h
      obtain ⟨dep, hdep, h⟩ := h
      obtain ⟨hlength, rfl⟩ := dependency_ok hdep
      obtain ⟨rfl, rfl⟩ := Prod.mk.inj (Except.ok.inj h)
      exact ⟨hlength, .ungrouped htop hdependency.1 hdependency.2 hcounts⟩
    next hdependency =>
      obtain ⟨hlength, rfl, rfl⟩ := ignore_ok h
      refine ⟨hlength, .ignored htop ?_⟩
      simp only [Bool.and_eq_true, decide_eq_true_eq] at hgroup hdependency
      rintro ⟨hns, hname | hname⟩
      · exact hgroup ⟨hns, hname⟩
      · exact hdependency ⟨hns, hname⟩

theorem frameOf_group {index : ℕ} (htop : s.stack.head? = some (.group index))
    (h : frameOf s e (e.ns.uri = s.metadataNs) = .ok (frame, s')) :
    e.attributes.length ≤ maxAttributes ∧ Opens s e frame s' := by
  simp only [frameOf, htop] at h
  split at h
  next hdependency =>
    simp only [Bool.and_eq_true, decide_eq_true_eq] at hdependency
    rw [bind_eq_ok] at h
    obtain ⟨counts, hcounts, h⟩ := h
    rw [bind_eq_ok] at h
    obtain ⟨dep, hdep, h⟩ := h
    obtain ⟨hlength, rfl⟩ := dependency_ok hdep
    obtain ⟨rfl, rfl⟩ := Prod.mk.inj (Except.ok.inj h)
    exact ⟨hlength, .dependency htop hdependency.1 hdependency.2 hcounts⟩
  next hdependency =>
    obtain ⟨hlength, rfl, rfl⟩ := ignore_ok h
    exact ⟨hlength, .ignored htop (by simpa [HasPlace] using hdependency)⟩

theorem frameOf_packageTypes (htop : s.stack.head? = some .packageTypes)
    (h : frameOf s e (e.ns.uri = s.metadataNs) = .ok (frame, s')) :
    e.attributes.length ≤ maxAttributes ∧ Opens s e frame s' := by
  simp only [frameOf, htop] at h
  split at h
  next htype =>
    simp only [Bool.and_eq_true, decide_eq_true_eq] at htype
    rw [bind_eq_ok] at h
    obtain ⟨counts, hcounts, h⟩ := h
    rw [bind_eq_ok] at h
    obtain ⟨values, hvalues, h⟩ := h
    obtain ⟨hlength, rfl⟩ := attributes_ok hvalues
    obtain ⟨rfl, rfl⟩ := Prod.mk.inj (Except.ok.inj h)
    exact ⟨hlength, .packageType htop htype.1 htype.2 hcounts⟩
  next htype =>
    obtain ⟨hlength, rfl, rfl⟩ := ignore_ok h
    exact ⟨hlength, .ignored htop (by simpa [HasPlace] using htype)⟩

theorem frameOf_ok (h : frameOf s e (e.ns.uri = s.metadataNs) = .ok (frame, s')) :
    e.attributes.length ≤ maxAttributes ∧ Opens s e frame s' := by
  cases htop : s.stack.head? with
  | none => exact frameOf_outside htop h
  | some top =>
    cases top with
    | root => exact frameOf_root htop h
    | metadata => exact frameOf_metadata htop h
    | field field => simp [frameOf, htop] at h
    | dependencies => exact frameOf_dependencies htop h
    | group index => exact frameOf_group htop h
    | packageTypes => exact frameOf_packageTypes htop h
    | ignored =>
      simp only [frameOf, htop] at h
      obtain ⟨hlength, rfl, rfl⟩ := ignore_ok h
      exact ⟨hlength, .ignored htop (by simp [HasPlace])⟩

theorem startElement_ok (h : startElement s e = .ok (frame, s')) :
    s.stack.length < maxElementDepth ∧ e.attributes.length ≤ maxAttributes ∧
      Opens s e frame s' := by
  unfold startElement at h
  split at h
  · simp at h
  next hdepth =>
    rw [bind_eq_ok] at h
    obtain ⟨ns, hns, h⟩ := h
    obtain rfl := namespaceOf_ok hns
    exact ⟨by omega, frameOf_ok h⟩

theorem Opens.kept (h : Opens s e frame s') :
    s'.stack = s.stack ∧ s'.text = s.text ∧ s'.rootClosed = s.rootClosed := by
  cases h with
  | child htop hns hchild => cases hchild <;> exact ⟨rfl, rfl, rfl⟩
  | root | metadata | group | ungrouped | dependency | packageType | ignored =>
    exact ⟨rfl, rfl, rfl⟩

end Frames

section Totals

/-- The totals are at least what was collected, and within the limits. -/
structure Counted (s : State) : Prop where
  groups : s.nuspec.dependencyGroups.length ≤ s.counts.groups
  dependencies : (s.nuspec.dependencyGroups.flatMap (·.dependencies)).length +
    s.ungrouped.length ≤ s.counts.dependencies
  packageTypes : s.nuspec.packageTypes.length ≤ s.counts.packageTypes
  maxGroups : s.counts.groups ≤ maxDependencyGroups
  maxDependencies : s.counts.dependencies ≤ Manifest.maxDependencies
  maxPackageTypes : s.counts.packageTypes ≤ Manifest.maxPackageTypes

variable {s s' : State} {e : Tag} {frame : Frame}

theorem length_modify_dependencies (groups : List DependencyGroup) (index : ℕ) (dep : Dependency) :
    ((groups.modify index fun g => { g with dependencies := g.dependencies ++ [dep] }).flatMap
      (·.dependencies)).length ≤ (groups.flatMap (·.dependencies)).length + 1 := by
  induction groups generalizing index with
  | nil => simp
  | cons g groups ih =>
    cases index with
    | zero =>
      simp only [List.modify_zero_cons, List.flatMap_cons, List.length_append]
      simp only [List.length_singleton]
      omega
    | succ index =>
      have hrest := ih index
      simp only [List.modify_succ_cons, List.flatMap_cons, List.length_append] at hrest ⊢
      omega

theorem Counted.opens (h : Counted s) (hopens : Opens s e frame s') : Counted s' := by
  obtain ⟨hgroups, hdependencies, htypes, hmg, hmd, hmt⟩ := h
  cases hopens with
  | root | metadata | ignored => exact ⟨hgroups, hdependencies, htypes, hmg, hmd, hmt⟩
  | child htop hns hchild =>
    cases hchild <;> exact ⟨hgroups, hdependencies, htypes, hmg, hmd, hmt⟩
  | group htop hns hname hcounts =>
    unfold Counts.addGroup at hcounts
    split at hcounts
    · simp at hcounts
    · obtain rfl := Except.ok.inj hcounts
      constructor <;> simp [-List.length_flatMap] <;> omega
  | ungrouped htop hns hname hcounts =>
    unfold Counts.addDependency at hcounts
    split at hcounts
    · simp at hcounts
    · obtain rfl := Except.ok.inj hcounts
      constructor <;> simp [-List.length_flatMap] <;> omega
  | @dependency index counts htop hns hname hcounts =>
    have hmodify :=
      length_modify_dependencies s.nuspec.dependencyGroups index (readDependency e)
    unfold Counts.addDependency at hcounts
    split at hcounts
    · simp at hcounts
    · obtain rfl := Except.ok.inj hcounts
      constructor <;> simp [-List.length_flatMap] <;> omega
  | packageType htop hns hname hcounts =>
    unfold Counts.addPackageType at hcounts
    split at hcounts
    · simp at hcounts
    · obtain rfl := Except.ok.inj hcounts
      have hone : ((e.attribute "name").map fun name =>
          (⟨name, e.attribute "version"⟩ : PackageType)).toList.length ≤ 1 := by
        cases e.attribute "name" <;> simp
      constructor <;> simp only [List.length_append] <;> omega

theorem assign_collected (n : Nuspec) (field : Field) (text : Text) :
    (assign n field text).dependencyGroups = n.dependencyGroups ∧
      (assign n field text).packageTypes = n.packageTypes := by
  cases field <;> exact ⟨rfl, rfl⟩

/-- The end of an element collects nothing but text. -/
theorem endElement_collected (s : State) :
    (endElement s).nuspec.dependencyGroups = s.nuspec.dependencyGroups ∧
      (endElement s).nuspec.packageTypes = s.nuspec.packageTypes ∧
      (endElement s).ungrouped = s.ungrouped ∧ (endElement s).counts = s.counts := by
  unfold endElement
  cases hstack : s.stack with
  | nil => exact ⟨rfl, rfl, rfl, rfl⟩
  | cons top rest =>
    cases top with
    | field field =>
      have hassign := assign_collected s.nuspec field (trim s.text)
      simp only
      split_ifs <;> simp [hassign]
    | root | metadata | dependencies | group | packageTypes | ignored =>
      simp only
      split_ifs <;> exact ⟨rfl, rfl, rfl, rfl⟩

theorem readLeaf_ok {l : Leaf} (h : readLeaf s l = .ok s') : s' = pushText s l.content := by
  have hnil : pushText s [] = s := by
    unfold pushText
    split_ifs <;> simp
  cases l with
  | text content => exact (Except.ok.inj h).symm
  | cdata content => exact (Except.ok.inj h).symm
  | generalRef name charRef =>
    cases hresolved : resolveReference name charRef with
    | none => simp [readLeaf, hresolved] at h
    | some resolved =>
      simp only [readLeaf, hresolved] at h
      rw [← Except.ok.inj h, Leaf.content, hresolved]
      rfl
  | docType => simp [readLeaf] at h
  | other => exact (Except.ok.inj h).symm.trans hnil.symm

theorem Counted.congr (h : Counted s) (hgroups : s'.nuspec.dependencyGroups =
    s.nuspec.dependencyGroups) (htypes : s'.nuspec.packageTypes = s.nuspec.packageTypes)
    (hungrouped : s'.ungrouped = s.ungrouped) (hcounts : s'.counts = s.counts) : Counted s' := by
  obtain ⟨h₁, h₂, h₃, h₄, h₅, h₆⟩ := h
  constructor <;> simpa only [hgroups, htypes, hungrouped, hcounts]

theorem counted_step (s : State) (event : XmlEvent) (s' : State) (hstep : step s event = .ok s')
    (h : Counted s) : Counted s' := by
  cases event with
  | start e =>
    unfold step at hstep
    rw [bind_eq_ok] at hstep
    obtain ⟨⟨frame, opened⟩, hstart, hstep⟩ := hstep
    obtain rfl := Except.ok.inj hstep
    exact (h.opens (startElement_ok hstart).2.2).congr rfl rfl rfl rfl
  | empty e =>
    unfold step at hstep
    rw [bind_eq_ok] at hstep
    obtain ⟨⟨frame, opened⟩, hstart, hstep⟩ := hstep
    obtain rfl := Except.ok.inj hstep
    exact h.opens (startElement_ok hstart).2.2
  | close name =>
    obtain rfl := Except.ok.inj hstep
    obtain ⟨hgroups, htypes, hungrouped, hcounts⟩ := endElement_collected s
    exact h.congr hgroups htypes hungrouped hcounts
  | leaf l =>
    obtain rfl := readLeaf_ok hstep
    unfold pushText
    split_ifs
    · exact h.congr rfl rfl rfl rfl
    · exact h

end Totals

section Walks

variable {s s' : State} {nodes : XmlNodes}

def Walk (s : State) (nodes : XmlNodes) (s' : State) : Prop :=
  (nodes.events Tag.name).foldlM step s = .ok s'

theorem step_start_ok {e : Tag} (h : step s (.start e) = .ok s') :
    ∃ frame opened, startElement s e = .ok (frame, opened) ∧
      s' = { opened with stack := frame :: s.stack, text := [] } := by
  unfold step at h
  rw [bind_eq_ok] at h
  obtain ⟨⟨frame, opened⟩, hstart, h⟩ := h
  have hstack := (startElement_ok hstart).2.2.kept.1
  refine ⟨frame, opened, hstart, ?_⟩
  rw [← Except.ok.inj h, hstack]

theorem step_empty_ok {e : Tag} (h : step s (.empty e) = .ok s') :
    ∃ frame, startElement s e = .ok (frame, s') := by
  unfold step at h
  rw [bind_eq_ok] at h
  obtain ⟨⟨frame, opened⟩, hstart, h⟩ := h
  obtain rfl := Except.ok.inj h
  exact ⟨frame, hstart⟩

theorem walk_element {tag : Tag} {children rest : XmlNodes}
    (h : Walk s (.element tag children rest) s') :
    ∃ frame opened inside, startElement s tag = .ok (frame, opened) ∧
      Walk { opened with stack := frame :: s.stack, text := [] } children inside ∧
      Walk (endElement inside) rest s' := by
  unfold Walk Nodes.events at h
  obtain ⟨s₁, hstart, h⟩ := foldlM_cons_ok.mp h
  obtain ⟨inside, hinside, h⟩ := foldlM_append_ok.mp h
  obtain ⟨s₂, hclose, hrest⟩ := foldlM_cons_ok.mp h
  obtain ⟨frame, opened, hopened, rfl⟩ := step_start_ok hstart
  obtain rfl := Except.ok.inj hclose
  exact ⟨frame, opened, inside, hopened, hinside, hrest⟩

theorem walk_selfClosing {tag : Tag} {rest : XmlNodes} (h : Walk s (.selfClosing tag rest) s') :
    ∃ frame opened, startElement s tag = .ok (frame, opened) ∧ Walk opened rest s' := by
  unfold Walk Nodes.events at h
  obtain ⟨opened, hempty, hrest⟩ := foldlM_cons_ok.mp h
  obtain ⟨frame, hstart⟩ := step_empty_ok hempty
  exact ⟨frame, opened, hstart, hrest⟩

theorem walk_leaf {l : Leaf} {rest : XmlNodes} (h : Walk s (.leaf l rest) s') :
    Walk (pushText s l.content) rest s' := by
  unfold Walk Nodes.events at h
  obtain ⟨s₁, hleaf, hrest⟩ := foldlM_cons_ok.mp h
  obtain rfl := readLeaf_ok hleaf
  exact hrest

theorem walk_nil (h : Walk s .nil s') : s' = s := (foldlM_nil_ok.mp h).symm

theorem pushText_stack (s : State) (content : Text) : (pushText s content).stack = s.stack := by
  unfold pushText
  split_ifs <;> rfl

theorem endElement_stack (s : State) : (endElement s).stack = s.stack.tail := by
  unfold endElement
  cases hstack : s.stack with
  | nil => rfl
  | cons top rest =>
    cases top <;> (simp only; split_ifs <;> rfl)

theorem Walk.stack (h : Walk s nodes s') : s'.stack = s.stack := by
  induction nodes generalizing s s' with
  | nil => rw [walk_nil h]
  | element tag children rest ihc ihr =>
    obtain ⟨frame, opened, inside, hstart, hchildren, hrest⟩ := walk_element h
    rw [ihr hrest, endElement_stack, ihc hchildren]
    rfl
  | selfClosing tag rest ih =>
    obtain ⟨frame, opened, hstart, hrest⟩ := walk_selfClosing h
    rw [ih hrest]
    exact (startElement_ok hstart).2.2.kept.1
  | leaf l rest ih => rw [ih (walk_leaf h), pushText_stack]

/-- All elements are within the depth, and their attributes within their number. -/
theorem Walk.bounds (h : Walk s nodes s') (hs : s.stack.length ≤ maxElementDepth) :
    s.stack.length + nodes.depth ≤ maxElementDepth ∧
      ∀ e ∈ nodes.tags, e.attributes.length ≤ maxAttributes := by
  induction nodes generalizing s s' with
  | nil => exact ⟨hs, by simp [Nodes.tags]⟩
  | element tag children rest ihc ihr =>
    obtain ⟨frame, opened, inside, hstart, hchildren, hrest⟩ := walk_element h
    obtain ⟨hdepth, hlength, -⟩ := startElement_ok hstart
    have hstack : (endElement inside).stack = s.stack := by
      rw [endElement_stack, hchildren.stack]
      rfl
    obtain ⟨hc, hct⟩ := ihc hchildren (Nat.succ_le_of_lt hdepth)
    obtain ⟨hr, hrt⟩ := ihr hrest (by rw [hstack]; exact hs)
    rw [hstack] at hr
    rw [List.length_cons] at hc
    refine ⟨by rw [Nodes.depth]; omega, ?_⟩
    intro e he
    simp only [Nodes.tags, List.cons_append, List.mem_cons, List.mem_append] at he
    rcases he with rfl | he | he
    exacts [hlength, hct e he, hrt e he]
  | selfClosing tag rest ih =>
    obtain ⟨frame, opened, hstart, hrest⟩ := walk_selfClosing h
    obtain ⟨hdepth, hlength, hopens⟩ := startElement_ok hstart
    obtain ⟨hr, hrt⟩ := ih hrest (by rw [hopens.kept.1]; exact hs)
    rw [hopens.kept.1] at hr
    refine ⟨by rw [Nodes.depth]; omega, ?_⟩
    intro e he
    simp only [Nodes.tags, List.mem_cons] at he
    rcases he with rfl | he
    exacts [hlength, hrt e he]
  | leaf l rest ih =>
    have hstack := pushText_stack s l.content
    have hrest := ih (walk_leaf h) (by rw [hstack]; exact hs)
    rwa [hstack] at hrest

end Walks

end YaNuget.Manifest
