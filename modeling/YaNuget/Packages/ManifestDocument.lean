import YaNuget.Packages.ManifestRead

/-!
# Manifest documents

An accepted document is read as its tree reads, if it is a document: if all its
elements are closed and no self-closing element stands outside of the root. The
parser checks neither.
-/
namespace YaNuget.Manifest

open EventTrees Outcomes

section Root

variable {m : Tag} {s s' : State} {e : Element} {es es' : List Element} {nodes : XmlNodes}

theorem Collected.of_core {stack : List Frame} {closed : Bool} (h : Collected m es s)
    (hcore : s'.core = State.core { s with stack := stack, rootClosed := closed }) :
    Collected m es s' := by
  refine ⟨(core_metadataSeen hcore).trans h.metadataSeen, (core_metadataNs hcore).trans h.ns,
    (core_nuspec hcore).trans h.nuspec, (core_ungrouped hcore).trans h.ungrouped, ?_, h.once,
    h.plain⟩
  rw [core_seen hcore]
  exact h.seen

theorem Collected.visits (h : Collected m es s) (hs : s.stack.head? = some .metadata)
    (hvisits : Visits s es' s') : Collected m (es ++ es') s' := by
  induction hvisits generalizing es with
  | nil => rwa [List.append_nil]
  | cons visit rest ih =>
    have hvisited := ih (h.visit hs visit) (by rw [visit.stack]; exact hs)
    rwa [List.append_assoc] at hvisited

/-- Nothing of the manifest has been read. -/
structure Fresh (s : State) : Prop where
  metadataSeen : s.metadataSeen = false
  nuspec : s.nuspec = {}
  seen : s.seen = []
  ungrouped : s.ungrouped = []

theorem Fresh.of_core {stack : List Frame} {closed : Bool} (h : Fresh s)
    (hcore : s'.core = State.core { s with stack := stack, rootClosed := closed }) : Fresh s' :=
  ⟨(core_metadataSeen hcore).trans h.metadataSeen, (core_nuspec hcore).trans h.nuspec,
    (core_seen hcore).trans h.seen, (core_ungrouped hcore).trans h.ungrouped⟩

def RootRead (es : List Element) (s : State) : Prop :=
  (Fresh s ∧ metadataOf es = []) ∨
    ∃ m, metadataOf es = [m] ∧ Collected m.1 m.2.elements s

theorem RootRead.of_core {stack : List Frame} {closed : Bool} (h : RootRead es s)
    (hcore : s'.core = State.core { s with stack := stack, rootClosed := closed }) :
    RootRead es s' := by
  rcases h with ⟨hfresh, hnone⟩ | ⟨m, hone, hcollected⟩
  · exact Or.inl ⟨hfresh.of_core hcore, hnone⟩
  · exact Or.inr ⟨m, hone, hcollected.of_core hcore⟩

/-- The metadata is read as its children read. -/
theorem Fresh.metadata (h : Fresh s) (hs : s.stack ≠ []) {inside : State}
    (hwalk : Walk { s with
      metadataSeen := true, metadataNs := e.1.defaultNs.uri
      nuspec := { s.nuspec with minClientVersion := e.1.attribute "minClientVersion" }
      stack := .metadata :: s.stack, text := [] } e.2 inside)
    (hcore : s'.core = (endElement inside).core) : Collected e.1 e.2.elements s' := by
  have hstart : Collected e.1 [] { s with
      metadataSeen := true, metadataNs := e.1.defaultNs.uri
      nuspec := { s.nuspec with minClientVersion := e.1.attribute "minClientVersion" }
      stack := .metadata :: s.stack, text := [] } := by
    refine ⟨rfl, rfl, ?_, h.ungrouped, ?_, ?_, ?_⟩
    · rw [h.nuspec]
      rfl
    · intro name hname
      simp [h.seen, named]
    · intro name hname
      simp [named]
    · intro name hname e he
      simp [named] at he
  have hinside := hstart.visits rfl (hwalk.visits rfl (Or.inl (by simp)))
  have hstack := hwalk.stack
  have hstate : s'.core = State.core { inside with stack := s.stack } := by
    rw [hcore, endElement_core hstack (by rw [hstack]; rfl) hs]
    rfl
  exact hinside.of_core hstate

theorem RootRead.visit (h : RootRead es s) (hs : s.stack.head? = some .root)
    (hvisit : Visit s e s') : RootRead (es ++ [e]) s' := by
  have hne := ne_nil_of_head? hs
  obtain ⟨frame, opened, inside, hopens, hwalk, hcore, hignored⟩ := hvisit.opens hne
  cases hopens with
  | metadata htop hname hseen =>
    rcases h with ⟨hfresh, hnone⟩ | ⟨m, hone, hcollected⟩
    · have hadded : metadataOf (es ++ [e]) = [e] := by
        have happend : metadataOf (es ++ [e]) = metadataOf es ++ metadataOf [e] :=
          List.filter_append ..
        rw [happend, hnone]
        simp [metadataOf, hname]
      exact Or.inr ⟨e, hadded, hfresh.metadata hne hwalk hcore⟩
    · rw [hcollected.metadataSeen] at hseen
      simp at hseen
  | ignored htop hplace =>
    obtain rfl := Option.some.inj (hs.symm.trans htop)
    have hname : e.1.localName ≠ "metadata" := hplace
    have hsame : metadataOf (es ++ [e]) = metadataOf es := by
      have happend : metadataOf (es ++ [e]) = metadataOf es ++ metadataOf [e] :=
        List.filter_append ..
      rw [happend]
      simp [metadataOf, hname]
    have hread := h.of_core (hignored rfl)
    rwa [RootRead, ← hsame] at hread
  | root htop | child htop | group htop | ungrouped htop | dependency htop | packageType htop =>
    simp [hs] at htop

theorem RootRead.visits (h : RootRead es s) (hs : s.stack.head? = some .root)
    (hvisits : Visits s es' s') : RootRead (es ++ es') s' := by
  induction hvisits generalizing es with
  | nil => rwa [List.append_nil]
  | cons visit rest ih =>
    have hvisited := ih (h.visit hs visit) (by rw [visit.stack]; exact hs)
    rwa [List.append_assoc] at hvisited

end Root

section Document

variable {xml : Xml} {n : Nuspec} {s s' : State} {e : Element} {es : List Element}
  {nodes : XmlNodes}

theorem not_visit_of_closed (hs : s.stack = []) (hclosed : s.rootClosed = true) :
    ¬ Visit s e s' := by
  rintro ⟨frame, opened, inside, hstart, -⟩
  cases (startElement_ok hstart).2.2 with
  | root htop hopen => simp [hclosed] at hopen
  | metadata htop | child htop | group htop | ungrouped htop | dependency htop | packageType htop
    | ignored htop => simp [hs] at htop

/-- The first element outside of all others is the root, and it is closed then. -/
theorem visit_root (hs : s.stack = []) (hfresh : Fresh s) (h : Visit s e s') :
    RootRead e.2.elements s' ∧ s'.rootClosed = true := by
  have hstack := h.stack
  obtain ⟨frame, opened, inside, hstart, hwalk, hcore⟩ := h
  cases (startElement_ok hstart).2.2 with
  | root htop hopen =>
    have hstart : RootRead [] { s with stack := .root :: s.stack, text := [] } :=
      Or.inl ⟨⟨hfresh.metadataSeen, hfresh.nuspec, hfresh.seen, hfresh.ungrouped⟩, rfl⟩
    have hread := hstart.visits rfl (hwalk.visits rfl (Or.inl (by simp)))
    have hinside := hwalk.stack
    have hstate : s'.core = State.core { inside with stack := [], rootClosed := true } := by
      rw [hcore, endElement, hinside, hs]
      rfl
    refine ⟨hread.of_core hstate, ?_⟩
    have hclosed := congrArg State.rootClosed hstate
    exact hclosed
  | metadata htop | child htop | group htop | ungrouped htop | dependency htop | packageType htop
    | ignored htop => simp [hs] at htop

theorem visits_root (hs : s.stack = []) (hfresh : Fresh s) (h : Visits s es s')
    (hseen : s'.metadataSeen = true) :
    ∃ root m, es = [root] ∧ metadataOf root.2.elements = [m] ∧ Collected m.1 m.2.elements s' := by
  cases h with
  | nil => simp [hfresh.metadataSeen] at hseen
  | @cons _ root s₁ _ _ visit rest =>
    obtain ⟨hread, hclosed⟩ := visit_root hs hfresh visit
    cases rest with
    | nil =>
      rcases hread with ⟨hfresh, -⟩ | ⟨m, hone, hcollected⟩
      · simp [hfresh.metadataSeen] at hseen
      · exact ⟨root, m, rfl, hone, hcollected⟩
    | cons visit' rest =>
      exact (not_visit_of_closed (visit.stack.trans hs) hclosed visit').elim

/-- What the checks at the end of the document ensure. -/
theorem finish_ok (h : finish s = .ok n) : s.metadataSeen = true ∧
    (s.ungrouped = [] ∧ n = s.nuspec ∨
      s.nuspec.dependencyGroups = [] ∧ s.ungrouped ≠ [] ∧
        n = { s.nuspec with dependencyGroups := [⟨none, s.ungrouped⟩] }) := by
  unfold finish at h
  split at h
  · simp at h
  next hseen =>
  split at h
  · simp at h
  next hmixed =>
  simp only at h
  generalize hnuspec : (if s.ungrouped.isEmpty then s.nuspec
    else { s.nuspec with dependencyGroups := [⟨none, s.ungrouped⟩] }) = nuspec at h
  split at h
  · simp at h
  split at h
  · simp at h
  obtain rfl := Except.ok.inj h
  refine ⟨by simpa using hseen, ?_⟩
  by_cases hungrouped : s.ungrouped = []
  · left
    refine ⟨hungrouped, ?_⟩
    rw [← hnuspec, if_pos (by simpa using hungrouped)]
  · right
    have hgroups : s.nuspec.dependencyGroups = [] := by simpa [hungrouped] using hmixed
    refine ⟨hgroups, hungrouped, ?_⟩
    rw [← hnuspec, if_neg (by simpa using hungrouped)]

/-- The manifest of an accepted document comes from a run over all of its events. -/
theorem of_parseNuspec (h : parseNuspec xml = .ok n) : xml.byteLen ≤ maxNuspecBytes ∧
    ∃ s, xml.events.foldlM step {} = .ok s ∧ finish s = .ok n := by
  unfold parseNuspec at h
  split at h
  · simp at h
  next hbytes =>
  rw [bind_eq_ok] at h
  obtain ⟨s, hrun, h⟩ := h
  split at h
  · simp at h
  · exact ⟨by omega, s, hrun, h⟩

theorem counted_of_run (h : xml.events.foldlM step {} = .ok s) : Counted s :=
  foldlM_keeps counted_step h ⟨by decide, by decide, by decide, by decide, by decide, by decide⟩

theorem Counted.limits (h : Counted s) (hfinish : finish s = .ok n) :
    n.dependencyGroups.length ≤ maxDependencyGroups ∧
      (n.dependencyGroups.flatMap (·.dependencies)).length ≤ Manifest.maxDependencies ∧
      n.packageTypes.length ≤ Manifest.maxPackageTypes := by
  obtain ⟨hgroups, hdependencies, htypes, hmg, hmd, hmt⟩ := h
  rcases (finish_ok hfinish).2 with ⟨-, rfl⟩ | ⟨-, -, rfl⟩
  · exact ⟨by omega, by omega, by omega⟩
  · have hone : 1 ≤ maxDependencyGroups := by decide
    refine ⟨hone, ?_, by simp only; omega⟩
    simp only [List.flatMap_cons, List.flatMap_nil, List.append_nil]
    omega

/-- The end of a document that has collected its metadata is the manifest of the metadata. -/
theorem Collected.finish {m : Element} (h : Collected m.1 m.2.elements s)
    (hfinish : finish s = .ok n) : n = readMetadata m.1 m.2.elements ∧
      (named m.1.defaultNs.uri "group" (under m.1.defaultNs.uri "dependencies" m.2.elements) = [] ∨
        named m.1.defaultNs.uri "dependency"
          (under m.1.defaultNs.uri "dependencies" m.2.elements) = []) := by
  have hungrouped := h.ungrouped
  have hnuspec := h.nuspec
  unfold outside at hungrouped
  rcases (finish_ok hfinish).2 with ⟨hnone, rfl⟩ | ⟨hgroups, hsome, rfl⟩
  · rw [hnone, eq_comm, List.map_eq_nil_iff] at hungrouped
    refine ⟨?_, Or.inr hungrouped⟩
    rw [hnuspec, collected]
    simp only [readMetadata, readDependencies, hungrouped, List.map_nil, List.isEmpty_nil, if_true]
  · rw [hnuspec] at hgroups
    unfold collected at hgroups
    simp only [List.map_eq_nil_iff] at hgroups
    refine ⟨?_, Or.inl hgroups⟩
    rw [hungrouped] at hsome
    rw [hnuspec, hungrouped, collected]
    simp only [readMetadata, readDependencies, List.isEmpty_iff, hsome, if_false]

theorem Reads.noSelfClosing (h : Reads xml n nodes root m) : nodes.hasSelfClosing = false := by
  by_contra hself
  obtain ⟨tag, htag⟩ := nodes.exists_of_hasSelfClosing (by simpa using hself)
  rw [h.oneRoot, List.mem_singleton] at htag
  have hmetadata := h.oneMetadata
  rw [← htag] at hmetadata
  simp [metadataOf, Nodes.elements] at hmetadata

theorem Reads.topSelfClosing (h : Reads xml n nodes root m) :
    topSelfClosing 0 xml.events = nodes.hasSelfClosing := by
  have htop : EventTrees.topSelfClosing 0 (nodes.events Tag.name ++ []) =
      (nodes.hasSelfClosing || false) := topSelfClosing_events nodes []
  rw [List.append_nil, ← h.closed, Bool.or_false] at htop
  exact htop

/-- An accepted manifest is the one that the tree of the document holds, if and only if all
elements are closed and none that closes itself stands outside of the root. -/
theorem parseNuspec_reads_iff (h : parseNuspec xml = .ok n) :
    (∃ nodes root m, Reads xml n nodes root m) ↔
      openTags Tag.name [] xml.events = some [] ∧ topSelfClosing 0 xml.events = false := by
  obtain ⟨hbytes, s, hrun, hfinish⟩ := of_parseNuspec h
  constructor
  · rintro ⟨nodes, root, m, hreads⟩
    refine ⟨hreads.closed ▸ openTags_of_events nodes, ?_⟩
    rw [hreads.topSelfClosing, hreads.noSelfClosing]
  · rintro ⟨hclosed, htop⟩
    obtain ⟨nodes, hnodes⟩ := exists_nodes hclosed
    have hwalk : Walk {} nodes s := by
      rw [Walk, ← hnodes]
      exact hrun
    have hself : nodes.hasSelfClosing = false := by
      have hevents : topSelfClosing 0 (nodes.events Tag.name ++ []) =
          (nodes.hasSelfClosing || false) := topSelfClosing_events nodes []
      rw [List.append_nil, ← hnodes, htop, Bool.or_false] at hevents
      exact hevents.symm
    have hfresh : Fresh {} := ⟨rfl, rfl, rfl, rfl⟩
    obtain ⟨root, m, hroot, hmetadata, hcollected⟩ := visits_root rfl hfresh
      (hwalk.visits rfl (Or.inr hself)) (finish_ok hfinish).1
    obtain ⟨hfields, hunmixed⟩ := hcollected.finish hfinish
    obtain ⟨hdepth, hattributes⟩ := hwalk.bounds (by decide)
    obtain ⟨hgroups, hdependencies, htypes⟩ := (counted_of_run hrun).limits hfinish
    exact ⟨nodes, root, m, {
      closed := hnodes
      oneRoot := hroot
      oneMetadata := hmetadata
      fields := hfields
      once := hcollected.once
      plain := hcollected.plain
      unmixed := hunmixed
      bytes := hbytes
      depth := by simpa using hdepth
      attributes := hattributes
      groups := hgroups
      dependencies := hdependencies
      packageTypes := htypes }⟩

def sampleTag (name : String) : Tag := ⟨name, name, .unbound, .unbound, []⟩

/-- A manifest with an id and a version, up to the end of the version. -/
def sampleOpened : List XmlEvent :=
  [.start (sampleTag "package"), .start (sampleTag "metadata"), .start (sampleTag "id"),
    .leaf (.text ['A']), .close "id", .start (sampleTag "version"), .leaf (.text ['1', '.', '0']),
    .close "version"]

def sampleXml : Xml where
  byteLen := 72
  events := sampleOpened ++ [.close "metadata", .close "package"]
  malformed := none
  matched := by decide

/-- The document breaks off. -/
def truncatedXml : Xml where
  byteLen := 51
  events := sampleOpened
  malformed := none
  matched := by decide

/-- A root that closes itself stands before the one that is read. -/
def twoRootsXml : Xml where
  byteLen := 82
  events := .empty (sampleTag "package") :: sampleXml.events
  malformed := none
  matched := by decide

def sampleNuspec : Nuspec := { id := ['A'], version := ['1', '.', '0'] }

theorem parseNuspec_reads_sample : ∃ nodes root m, Reads sampleXml sampleNuspec nodes root m := by
  have hparsed : parseNuspec sampleXml = .ok sampleNuspec := by decide +kernel
  have hclosed : openTags Tag.name [] sampleXml.events = some [] := by decide +kernel
  have hroot : topSelfClosing 0 sampleXml.events = false := by decide +kernel
  exact (parseNuspec_reads_iff hparsed).mpr ⟨hclosed, hroot⟩

/-- A manifest that breaks off is accepted, and so is one with two roots. -/
theorem unclosed_manifest_accepted :
    (parseNuspec truncatedXml = .ok sampleNuspec ∧
      ¬∃ nodes root m, Reads truncatedXml sampleNuspec nodes root m) ∧
    parseNuspec twoRootsXml = .ok sampleNuspec ∧
      ¬∃ nodes root m, Reads twoRootsXml sampleNuspec nodes root m := by
  have htruncated : parseNuspec truncatedXml = .ok sampleNuspec := by decide +kernel
  have htwo : parseNuspec twoRootsXml = .ok sampleNuspec := by decide +kernel
  refine ⟨⟨htruncated, ?_⟩, htwo, ?_⟩
  · rintro ⟨nodes, root, m, hreads⟩
    have hopen : openTags Tag.name [] truncatedXml.events = some ["metadata", "package"] := by
      decide +kernel
    rw [hreads.closed, openTags_of_events] at hopen
    simp at hopen
  · rintro ⟨nodes, root, m, hreads⟩
    have htop : topSelfClosing 0 twoRootsXml.events = true := by decide +kernel
    rw [hreads.topSelfClosing, hreads.noSelfClosing] at htop
    simp at htop

end Document

end YaNuget.Manifest
