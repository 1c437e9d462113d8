import YaNuget.Packages.ManifestSteps
import YaNuget.Packages.ManifestFields

/-!
# Reading manifests

The walk over a document visits the elements in it one after the other. Under
each frame a visit adds to the state what the element holds in its place, and
nothing else; so a document that is accepted is read as its tree reads.
-/
namespace YaNuget.Manifest

open EventTrees Outcomes

/-- The state without the text of an open field and without the running totals. -/
def State.core (s : State) : State := { s with text := [], counts := {} }

def Visit (s : State) (e : Element) (s' : State) : Prop :=
  ∃ frame opened inside, startElement s e.1 = .ok (frame, opened) ∧
    Walk { opened with stack := frame :: s.stack, text := [] } e.2 inside ∧
    s'.core = (endElement inside).core

/-- Elements are visited one after the other. -/
inductive Visits : State → List Element → State → Prop
  | nil {s} : Visits s [] s
  | cons {s e s₁ es s'} (visit : Visit s e s₁) (rest : Visits s₁ es s') : Visits s (e :: es) s'

section Visits

variable {s s' : State} {e : Element} {frame : Frame} {rest : List Frame} {nodes : XmlNodes}

theorem core_stack (h : s'.core = s.core) : s'.stack = s.stack := by
  have hstack := congrArg State.stack h
  exact hstack

theorem core_nuspec (h : s'.core = s.core) : s'.nuspec = s.nuspec := by
  have hnuspec := congrArg State.nuspec h
  exact hnuspec

theorem core_metadataNs (h : s'.core = s.core) : s'.metadataNs = s.metadataNs := by
  have hns := congrArg State.metadataNs h
  exact hns

theorem core_ungrouped (h : s'.core = s.core) : s'.ungrouped = s.ungrouped := by
  have hungrouped := congrArg State.ungrouped h
  exact hungrouped

theorem core_seen (h : s'.core = s.core) : s'.seen = s.seen := by
  have hseen := congrArg State.seen h
  exact hseen

theorem core_metadataSeen (h : s'.core = s.core) : s'.metadataSeen = s.metadataSeen := by
  have hseen := congrArg State.metadataSeen h
  exact hseen

theorem endElement_core (hs : s.stack = frame :: rest) (hfield : inField s.stack = false)
    (hrest : rest ≠ []) : (endElement s).core = { s.core with stack := rest } := by
  have hopen : rest.isEmpty = false := by simpa using hrest
  unfold endElement
  rw [hs] at hfield ⊢
  cases frame <;> simp_all [State.core, inField]

theorem endElement_field {field : Field} (hs : s.stack = .field field :: rest) (hrest : rest ≠ []) :
    (endElement s).core = { s.core with
      stack := rest
      nuspec := if (trim s.text).isEmpty then s.nuspec
        else assign s.nuspec field (trim s.text) } := by
  have hopen : rest.isEmpty = false := by simpa using hrest
  unfold endElement
  rw [hs]
  simp [State.core, hopen]

theorem Visit.stack (h : Visit s e s') : s'.stack = s.stack := by
  obtain ⟨frame, opened, inside, hstart, hwalk, hcore⟩ := h
  rw [core_stack hcore, endElement_stack, hwalk.stack]
  rfl

/-- A walk that starts outside of fields visits the elements. -/
theorem Walk.visits (h : Walk s nodes s') (hfield : inField s.stack = false)
    (hnested : s.stack ≠ [] ∨ nodes.hasSelfClosing = false) : Visits s nodes.elements s' := by
  induction nodes generalizing s s' with
  | nil =>
    rw [walk_nil h]
    exact .nil
  | element tag children rest ihc ihr =>
    obtain ⟨frame, opened, inside, hstart, hchildren, hrest⟩ := walk_element h
    have hvisit : Visit s (tag, children) (endElement inside) :=
      ⟨frame, opened, inside, hstart, hchildren, rfl⟩
    apply Visits.cons hvisit
    apply ihr hrest
    · rw [hvisit.stack]
      exact hfield
    · rw [hvisit.stack]
      exact hnested
  | selfClosing tag rest ih =>
    obtain ⟨frame, opened, hstart, hrest⟩ := walk_selfClosing h
    have hs : s.stack ≠ [] := by simpa [Nodes.hasSelfClosing] using hnested
    have hopened := (startElement_ok hstart).2.2.kept.1
    have hvisit : Visit s (tag, .nil) opened := by
      refine ⟨frame, opened, _, hstart, foldlM_nil_ok.mpr rfl, ?_⟩
      cases hframe : inField (frame :: s.stack) with
      | false =>
        rw [endElement_core rfl hframe hs, ← hopened]
        rfl
      | true =>
        cases frame with
        | field field =>
          rw [endElement_field rfl hs, ← hopened]
          rfl
        | root | metadata | dependencies | group | packageTypes | ignored => simp [inField] at hframe
    apply Visits.cons hvisit
    apply ih hrest
    · rw [hopened]
      exact hfield
    · rw [hopened]
      exact Or.inl hs
  | leaf l rest ih =>
    have hskip : pushText s l.content = s := by simp [pushText, hfield]
    have hrest := walk_leaf h
    rw [hskip] at hrest
    exact ih hrest hfield hnested

theorem Opens.under_ignored {e : Tag} (h : Opens s e frame s')
    (hs : s.stack.head? = some .ignored) : frame = .ignored ∧ s' = s := by
  cases h with
  | ignored => exact ⟨rfl, rfl⟩
  | root htop | metadata htop | child htop | group htop | ungrouped htop | dependency htop
    | packageType htop => simp [hs] at htop

/-- Nothing in an ignored element contributes. -/
theorem walk_ignored (h : Walk s nodes s') (hs : s.stack.head? = some .ignored) :
    s'.core = s.core := by
  induction nodes generalizing s s' with
  | nil => rw [walk_nil h]
  | element tag children rest ihc ihr =>
    obtain ⟨frame, opened, inside, hstart, hchildren, hrest⟩ := walk_element h
    obtain ⟨rfl, rfl⟩ := (startElement_ok hstart).2.2.under_ignored hs
    have hinside := ihc hchildren rfl
    have hstack := core_stack hinside
    have hne : opened.stack ≠ [] := by
      intro hnil
      simp [hnil] at hs
    have hend : (endElement inside).core = opened.core := by
      rw [endElement_core hstack (by rw [hstack]; rfl) hne, hinside]
      rfl
    rw [ihr hrest (by rw [core_stack hend]; exact hs), hend]
  | selfClosing tag rest ih =>
    obtain ⟨frame, opened, hstart, hrest⟩ := walk_selfClosing h
    obtain ⟨rfl, rfl⟩ := (startElement_ok hstart).2.2.under_ignored hs
    exact ih hrest hs
  | leaf l rest ih =>
    have hfield : inField s.stack = false := by
      cases hstack : s.stack with
      | nil => rfl
      | cons top tail =>
        rw [hstack] at hs
        obtain rfl := Option.some.inj hs
        rfl
    have hskip : pushText s l.content = s := by simp [pushText, hfield]
    have hrest := walk_leaf h
    rw [hskip] at hrest
    exact ih hrest hs

end Visits

section Places

variable {s s' : State} {e : Element} {es : List Element} {frame : Frame} {ns : Option Text}
  {name : String}

theorem named_cons_of (hns : e.1.ns.uri = ns) (hname : e.1.localName = name) (es : List Element) :
    named ns name (e :: es) = e :: named ns name es := by
  simp [named, hns, hname]

theorem named_cons_of_not (h : ¬ (e.1.ns.uri = ns ∧ e.1.localName = name)) (es : List Element) :
    named ns name (e :: es) = named ns name es := by
  simp [named, h]

theorem Visit.opens (h : Visit s e s') (hs : s.stack ≠ []) : ∃ frame opened inside,
    Opens s e.1 frame opened ∧
    Walk { opened with stack := frame :: s.stack, text := [] } e.2 inside ∧
    s'.core = (endElement inside).core ∧ (frame = .ignored → s'.core = opened.core) := by
  obtain ⟨frame, opened, inside, hstart, hwalk, hcore⟩ := h
  have hopens := (startElement_ok hstart).2.2
  refine ⟨frame, opened, inside, hopens, hwalk, hcore, ?_⟩
  rintro rfl
  have hinside := walk_ignored hwalk rfl
  have hstack := core_stack hinside
  rw [hcore, endElement_core hstack (by rw [hstack]; rfl) hs, hinside, ← hopens.kept.1]
  rfl

theorem ne_nil_of_head? {top : Frame} (hs : s.stack.head? = some top) : s.stack ≠ [] := by
  intro hnil
  simp [hnil] at hs

/-- The package types are the direct children of their element. -/
theorem Visits.packageTypes (h : Visits s es s') (hs : s.stack.head? = some .packageTypes) :
    s'.core = { s.core with nuspec := { s.nuspec with
      packageTypes := s.nuspec.packageTypes ++ readPackageTypes s.metadataNs es } } := by
  induction h with
  | nil => simp [readPackageTypes, named, State.core]
  | @cons s e s₁ es s' visit rest ih =>
    obtain ⟨frame, opened, inside, hopens, -, -, hignored⟩ := visit.opens (ne_nil_of_head? hs)
    have hrest := ih (by rw [visit.stack]; exact hs)
    cases hopens with
    | packageType htop hns hname hcounts =>
      have hcore := hignored rfl
      rw [hrest, hcore, core_nuspec hcore, core_metadataNs hcore]
      simp only [State.core, readPackageTypes, named_cons_of hns hname, List.filterMap_cons,
        List.append_assoc]
      cases e.1.attribute "name" <;> rfl
    | ignored htop hplace =>
      have hcore := hignored rfl
      obtain rfl := Option.some.inj (hs.symm.trans htop)
      rw [hrest, hcore, core_nuspec hcore, core_metadataNs hcore]
      simp only [readPackageTypes, named_cons_of_not hplace]
    | root htop | metadata htop | child htop | group htop | ungrouped htop | dependency htop =>
      simp [hs] at htop

theorem modify_concat {α : Type} (l : List α) (a : α) (f : α → α) :
    (l ++ [a]).modify l.length f = l ++ [f a] := by
  induction l with
  | nil => rfl
  | cons b l ih => simpa using ih

/-- The dependencies of a group are the direct children of its element. -/
theorem Visits.group {index : ℕ} (h : Visits s es s') (hs : s.stack.head? = some (.group index)) :
    s'.core = { s.core with nuspec := { s.nuspec with
      dependencyGroups := s.nuspec.dependencyGroups.modify index fun g => { g with
        dependencies := g.dependencies ++
          (named s.metadataNs "dependency" es).map (readDependency ·.1) } } } := by
  induction h with
  | nil =>
    have hid : (fun g : DependencyGroup => { g with dependencies := g.dependencies ++
        ([] : List Dependency) }) = id := by
      funext g
      simp
    simp only [named, List.filter_nil, List.map_nil, hid, List.modify_id]
    rfl
  | @cons s e s₁ es s' visit rest ih =>
    obtain ⟨frame, opened, inside, hopens, -, -, hignored⟩ := visit.opens (ne_nil_of_head? hs)
    have hrest := ih (by rw [visit.stack]; exact hs)
    cases hopens with
    | dependency htop hns hname hcounts =>
      have hcore := hignored rfl
      obtain rfl := Frame.group.inj (Option.some.inj (hs.symm.trans htop))
      rw [hrest, hcore, core_nuspec hcore, core_metadataNs hcore]
      simp only [State.core, named_cons_of hns hname, List.map_cons, List.modify_modify_eq,
        Function.comp_def, List.append_assoc, List.singleton_append]
    | ignored htop hplace =>
      have hcore := hignored rfl
      obtain rfl := Option.some.inj (hs.symm.trans htop)
      rw [hrest, hcore, core_nuspec hcore, core_metadataNs hcore]
      simp only [named_cons_of_not hplace]
    | root htop | metadata htop | child htop | group htop | ungrouped htop | packageType htop =>
      simp [hs] at htop

/-- The groups, and the dependencies outside of groups, are the direct children of their
element. -/
theorem Visits.dependencies (h : Visits s es s') (hs : s.stack.head? = some .dependencies) :
    s'.core = { s.core with
      ungrouped := s.ungrouped ++ (named s.metadataNs "dependency" es).map (readDependency ·.1)
      nuspec := { s.nuspec with dependencyGroups := s.nuspec.dependencyGroups ++
        (named s.metadataNs "group" es).map (readGroup s.metadataNs) } } := by
  induction h with
  | nil => simp [named, State.core]
  | @cons s e s₁ es s' visit rest ih =>
    obtain ⟨frame, opened, inside, hopens, hwalk, hcore, hignored⟩ :=
      visit.opens (ne_nil_of_head? hs)
    have hrest := ih (by rw [visit.stack]; exact hs)
    cases hopens with
    | group htop hns hname hcounts =>
      have hne : ¬ (e.1.ns.uri = s.metadataNs ∧ e.1.localName = "dependency") := by
        simp [hname]
      have hinside := (hwalk.visits rfl (Or.inl (by simp))).group rfl
      have hstack := hwalk.stack
      have hcore' : s₁.core = State.core { s with nuspec := { s.nuspec with
          dependencyGroups := s.nuspec.dependencyGroups ++ [readGroup s.metadataNs e] } } := by
        rw [hcore, endElement_core hstack (by rw [hstack]; rfl) (ne_nil_of_head? hs), hinside]
        simp only [State.core, modify_concat]
        rfl
      rw [hrest, hcore', core_nuspec hcore', core_metadataNs hcore', core_ungrouped hcore']
      simp only [State.core, named_cons_of hns hname, named_cons_of_not hne, List.map_cons,
        List.append_assoc, List.singleton_append]
    | ungrouped htop hns hname hcounts =>
      have hcore := hignored rfl
      have hne : ¬ (e.1.ns.uri = s.metadataNs ∧ e.1.localName = "group") := by
        simp [hname]
      rw [hrest, hcore, core_nuspec hcore, core_metadataNs hcore, core_ungrouped hcore]
      simp only [State.core, named_cons_of hns hname, named_cons_of_not hne, List.map_cons,
        List.append_assoc, List.singleton_append]
    | ignored htop hplace =>
      have hcore := hignored rfl
      obtain rfl := Option.some.inj (hs.symm.trans htop)
      have hgroup : ¬ (e.1.ns.uri = s.metadataNs ∧ e.1.localName = "group") :=
        fun h => hplace ⟨h.1, Or.inl h.2⟩
      have hdependency : ¬ (e.1.ns.uri = s.metadataNs ∧ e.1.localName = "dependency") :=
        fun h => hplace ⟨h.1, Or.inr h.2⟩
      rw [hrest, hcore, core_nuspec hcore, core_metadataNs hcore, core_ungrouped hcore]
      simp only [named_cons_of_not hgroup, named_cons_of_not hdependency]
    | root htop | metadata htop | child htop | dependency htop | packageType htop =>
      simp [hs] at htop

end Places

section Fields

variable {s s' : State} {nodes : XmlNodes} {field : Field}

theorem not_opens_in_field {e : Tag} {frame : Frame} {opened : State}
    (hs : s.stack.head? = some (.field field)) : ¬ Opens s e frame opened := by
  intro hopens
  cases hopens with
  | ignored htop hplace =>
    obtain rfl := Option.some.inj (hs.symm.trans htop)
    exact hplace trivial
  | root htop | metadata htop | child htop | group htop | ungrouped htop | dependency htop
    | packageType htop => simp [hs] at htop

theorem walk_field (h : Walk s nodes s') (hs : s.stack.head? = some (.field field)) :
    nodes.elements = [] ∧ s' = { s with text := s.text ++ content nodes } := by
  induction nodes generalizing s s' with
  | nil =>
    rw [walk_nil h]
    simp [Nodes.elements, content]
  | element tag children rest ihc ihr =>
    obtain ⟨frame, opened, inside, hstart, -, -⟩ := walk_element h
    exact (not_opens_in_field hs (startElement_ok hstart).2.2).elim
  | selfClosing tag rest ih =>
    obtain ⟨frame, opened, hstart, -⟩ := walk_selfClosing h
    exact (not_opens_in_field hs (startElement_ok hstart).2.2).elim
  | leaf l rest ih =>
    have hfield : inField s.stack = true := by
      cases hstack : s.stack with
      | nil => simp [hstack] at hs
      | cons top tail =>
        rw [hstack] at hs
        obtain rfl := Option.some.inj hs
        rfl
    have hpush : pushText s l.content = { s with text := s.text ++ l.content } := by
      simp [pushText, hfield]
    have hrest := walk_leaf h
    rw [hpush] at hrest
    obtain ⟨helements, rfl⟩ := ih hrest hs
    refine ⟨helements, ?_⟩
    simp [content]

end Fields

section Metadata

variable {m : Tag} {s s' : State} {e : Element} {es es' : List Element} {ns : Option Text}
  {name : String}

theorem named_concat (es : List Element) (e : Element) :
    named ns name (es ++ [e]) = named ns name es ++ named ns name [e] := List.filter_append ..

theorem named_concat_of (hns : e.1.ns.uri = ns) (hname : e.1.localName = name)
    (hnone : named ns name es = []) : named ns name (es ++ [e]) = [e] := by
  rw [named_concat, hnone, named_cons_of hns hname]
  rfl

theorem named_concat_of_not (h : ¬ (e.1.ns.uri = ns ∧ e.1.localName = name)) :
    named ns name (es ++ [e]) = named ns name es := by
  rw [named_concat, named_cons_of_not h]
  exact List.append_nil _

/-- The state has collected what the metadata `m` holds in its first children `es`. -/
structure Collected (m : Tag) (es : List Element) (s : State) : Prop where
  metadataSeen : s.metadataSeen = true
  ns : s.metadataNs = m.defaultNs.uri
  nuspec : s.nuspec = collected m es
  ungrouped : s.ungrouped = outside m es
  seen : ∀ name ∈ onceNames, name ∈ s.seen ↔ named m.defaultNs.uri name es ≠ []
  once : ∀ name ∈ onceNames, (named m.defaultNs.uri name es).length ≤ 1
  plain : ∀ name ∈ "license" :: fields.map (·.1), ∀ e ∈ named m.defaultNs.uri name es,
    e.2.elements = []

theorem named_concat_of_ne {other : String} (hname : e.1.localName = name) (hne : other ≠ name) :
    named ns other (es ++ [e]) = named ns other es := by
  apply named_concat_of_not
  rintro ⟨-, rfl⟩
  exact hne hname

theorem Collected.none (h : Collected m es s) (honce : name ∈ onceNames) (hnew : name ∉ s.seen) :
    named m.defaultNs.uri name es = [] := by
  by_contra hne
  exact hnew ((h.seen name honce).mpr hne)

/-- One more child of a name that may appear once. -/
theorem Collected.extend {nuspec : Nuspec} {ungrouped : List Dependency} (h : Collected m es s)
    (hns : e.1.ns.uri = m.defaultNs.uri) (hname : e.1.localName = name)
    (honce : name ∈ onceNames) (hnew : name ∉ s.seen)
    (hstate : s'.core = State.core { s with
      seen := name :: s.seen, nuspec := nuspec, ungrouped := ungrouped })
    (hnuspec : nuspec = collected m (es ++ [e])) (hungrouped : ungrouped = outside m (es ++ [e]))
    (hplain : name ∈ "license" :: fields.map (·.1) → e.2.elements = []) :
    Collected m (es ++ [e]) s' := by
  have hone := named_concat_of hns hname (h.none honce hnew)
  refine ⟨(core_metadataSeen hstate).trans h.metadataSeen, (core_metadataNs hstate).trans h.ns,
    (core_nuspec hstate).trans hnuspec, (core_ungrouped hstate).trans hungrouped, ?_, ?_, ?_⟩
  · intro other hother
    rw [core_seen hstate]
    by_cases heq : other = name
    · subst heq
      simp [hone]
    · rw [named_concat_of_ne hname heq, List.mem_cons, or_iff_right heq]
      exact h.seen other hother
  · intro other hother
    by_cases heq : other = name
    · rw [heq, hone]
      rfl
    · rw [named_concat_of_ne hname heq]
      exact h.once other hother
  · intro other hother
    by_cases heq : other = name
    · subst heq
      rw [hone]
      simpa using hplain hother
    · rw [named_concat_of_ne hname heq]
      exact h.plain other hother

/-- One more child that has no place in the metadata. -/
theorem Collected.skip (h : Collected m es s) (hcore : s'.core = s.core)
    (hother : ∀ name ∈ onceNames, ¬ (e.1.ns.uri = m.defaultNs.uri ∧ e.1.localName = name)) :
    Collected m (es ++ [e]) s' := by
  have hsame (name : String) (hname : name ∈ onceNames) :
      named m.defaultNs.uri name (es ++ [e]) = named m.defaultNs.uri name es :=
    named_concat_of_not (hother name hname)
  have hplain : ∀ name ∈ "license" :: fields.map (·.1), name ∈ onceNames := by decide
  obtain ⟨hcollected, houtside⟩ := collected_congr hsame
  refine ⟨(core_metadataSeen hcore).trans h.metadataSeen, (core_metadataNs hcore).trans h.ns,
    ?_, ?_, ?_, ?_, ?_⟩
  · rw [core_nuspec hcore, h.nuspec, hcollected]
  · rw [core_ungrouped hcore, h.ungrouped, houtside]
  · intro name hname
    rw [core_seen hcore, hsame name hname]
    exact h.seen name hname
  · intro name hname
    rw [hsame name hname]
    exact h.once name hname
  · intro name hname
    rw [hsame name (hplain name hname)]
    exact h.plain name hname

theorem Collected.field {field : Field} {inside : State} (h : Collected m es s)
    (hs : s.stack ≠ []) (hns : e.1.ns.uri = m.defaultNs.uri) (hname : e.1.localName = name)
    (honce : name ∈ onceNames) (hnew : name ∉ s.seen) (hfield : field.name = name)
    (hlicense : name = "license" → licenseField e.1 = field)
    (hwalk : Walk { s with seen := name :: s.seen, stack := .field field :: s.stack, text := [] }
      e.2 inside)
    (hcore : s'.core = (endElement inside).core) : Collected m (es ++ [e]) s' := by
  obtain ⟨helements, rfl⟩ := walk_field hwalk rfl
  have hstate : s'.core = State.core { s with
      seen := name :: s.seen
      nuspec := if (trim (content e.2)).isEmpty then s.nuspec
        else assign s.nuspec field (trim (content e.2)) } := by
    rw [hcore, endElement_field rfl hs]
    rfl
  have hnone := h.none honce hnew
  obtain ⟨hcollected, houtside⟩ := collected_field hnone (named_concat_of hns hname hnone)
    (fun _ hne => named_concat_of_ne hname hne) hfield hlicense
  apply h.extend hns hname honce hnew hstate
  · rw [hcollected, ← h.nuspec]
  · rw [houtside, ← h.ungrouped]
  · exact fun _ => helements

/-- A visited child of the metadata adds what it holds. -/
theorem Collected.visit (h : Collected m es s) (hs : s.stack.head? = some .metadata)
    (hvisit : Visit s e s') : Collected m (es ++ [e]) s' := by
  have hne := ne_nil_of_head? hs
  obtain ⟨frame, opened, inside, hopens, hwalk, hcore, hignored⟩ := hvisit.opens hne
  cases hopens with
  | ignored htop hplace =>
    obtain rfl := Option.some.inj (hs.symm.trans htop)
    apply h.skip (hignored rfl)
    rintro name - ⟨hns, -⟩
    exact hplace (hns.trans h.ns.symm)
  | child htop hns hchild =>
    rw [h.ns] at hns
    cases hchild with
    | field hfield hname hnew =>
      obtain ⟨hfieldName, hlicense, honce⟩ := name_of_mem_fields hfield
      exact h.field hne hns hname honce hnew hfieldName (fun heq => (hlicense heq).elim) hwalk hcore
    | license hname hnew =>
      have hfieldName : (licenseField e.1).name = "license" := by
        unfold licenseField
        split_ifs <;> rfl
      exact h.field hne hns hname (by decide) hnew hfieldName (fun _ => rfl) hwalk hcore
    | repository hname hnew =>
      have hnone := h.none (by decide) hnew
      obtain ⟨hcollected, houtside⟩ := collected_repository hnone (named_concat_of hns hname hnone)
        (fun _ hne => named_concat_of_ne hname hne) rfl
      apply h.extend hns hname (by decide) hnew (hignored rfl)
      · rw [hcollected, ← h.nuspec]
      · rw [houtside, ← h.ungrouped]
      · intro hplain
        exact absurd hplain (by decide)
    | dependencies hname hnew =>
      have hnone := h.none (by decide) hnew
      obtain ⟨hcollected, houtside, hgroups, hempty⟩ := collected_dependencies hnone
        (named_concat_of hns hname hnone) (fun _ hne => named_concat_of_ne hname hne) rfl
      have hinside := (hwalk.visits rfl (Or.inl (by simp))).dependencies rfl
      have hstack := hwalk.stack
      have hstate : s'.core = State.core { s with
          seen := "dependencies" :: s.seen
          nuspec := { s.nuspec with dependencyGroups := s.nuspec.dependencyGroups ++
            (named s.metadataNs "group" e.2.elements).map (readGroup s.metadataNs) }
          ungrouped := s.ungrouped ++
            (named s.metadataNs "dependency" e.2.elements).map (readDependency ·.1) } := by
        rw [hcore, endElement_core hstack (by rw [hstack]; rfl) hne, hinside]
        rfl
      apply h.extend hns hname (by decide) hnew hstate
      · rw [hcollected, h.nuspec, hgroups, h.ns]
        rfl
      · rw [houtside, h.ungrouped, hempty, h.ns]
        rfl
      · intro hplain
        exact absurd hplain (by decide)
    | packageTypes hname hnew =>
      have hnone := h.none (by decide) hnew
      obtain ⟨hcollected, houtside, htypes⟩ := collected_packageTypes hnone
        (named_concat_of hns hname hnone) (fun _ hne => named_concat_of_ne hname hne) rfl
      have hinside := (hwalk.visits rfl (Or.inl (by simp))).packageTypes rfl
      have hstack := hwalk.stack
      have hstate : s'.core = State.core { s with
          seen := "packageTypes" :: s.seen
          nuspec := { s.nuspec with packageTypes :=
            (s.nuspec.packageTypes ++ readPackageTypes s.metadataNs e.2.elements) } } := by
        rw [hcore, endElement_core hstack (by rw [hstack]; rfl) hne, hinside]
        rfl
      apply h.extend hns hname (by decide) hnew hstate
      · rw [hcollected, h.nuspec, htypes, h.ns]
        rfl
      · rw [houtside, ← h.ungrouped]
      · intro hplain
        exact absurd hplain (by decide)
    | other hother =>
      apply h.skip (hignored rfl)
      rintro name hname ⟨-, rfl⟩
      exact hother hname
  | root htop | metadata htop | group htop | ungrouped htop | dependency htop | packageType htop =>
    simp [hs] at htop

end Metadata

end YaNuget.Manifest
