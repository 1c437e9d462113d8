import YaNuget.Data.Outcomes
import YaNuget.Internalize.ClosureSearch

/-!
# What a resolved closure is

A closure is a set of versions that fits, with its root first. That no set fits
is reported where none can be taken in the order of the listings: a pre-release
under a stable root has to be pinned by a package that is chosen before it. So
a resolution that fails proves that no set fits, and fails in every order of
listing, just when every set that fits leaves one that can be so taken.
-/
namespace YaNuget.Internalize.Closures

open Versions Outcomes

theorem edge_new_ok {info : PackageInfo} {dep : DependencyRef} {edge : Edge} :
    Edge.new info dep = .ok edge ↔ isValidId dep.id = true ∧
      VersionRange.parse (dep.range.getD []) = .ok edge.range ∧ edge.id = dep.id := by
  unfold Edge.new
  cases hid : isValidId dep.id with
  | false => simp
  | true =>
    cases hrange : VersionRange.parse (dep.range.getD []) with
    | error e => simp
    | ok range =>
      simp only [Bool.not_true, Bool.false_eq_true, if_false, Except.ok.injEq, true_and]
      constructor
      · rintro rfl
        exact ⟨rfl, rfl⟩
      · rintro ⟨rfl, hedge⟩
        rw [← hedge]

/-- Dependencies are parsed when each of them is. -/
theorem mapM_edges {info : PackageInfo} {deps : List DependencyRef} {edges : List Edge} :
    deps.mapM (Edge.new info) = .ok edges ↔
      (∀ d ∈ deps, ∃ e, Edge.new info d = .ok e) ∧
        edges = deps.filterMap fun d => (Edge.new info d).toOption := by
  induction deps generalizing edges with
  | nil => simp [pure, Except.pure, eq_comm]
  | cons d deps ih =>
    rw [List.mapM_cons, bind_eq_ok]
    constructor
    · rintro ⟨e, he, hrest⟩
      obtain ⟨es, hes, hpure⟩ := bind_eq_ok.mp hrest
      obtain ⟨hall, rfl⟩ := ih.mp hes
      cases hpure
      constructor
      · rw [List.forall_mem_cons]
        exact ⟨⟨e, he⟩, hall⟩
      · rw [List.filterMap_cons, he]
        rfl
    · rintro ⟨hall, rfl⟩
      rw [List.forall_mem_cons] at hall
      obtain ⟨⟨e, he⟩, hall⟩ := hall
      refine ⟨e, he, bind_eq_ok.mpr ⟨_, ih.mpr ⟨hall, rfl⟩, ?_⟩⟩
      rw [List.filterMap_cons, he]
      rfl

theorem edge_new_toOption (a b : PackageInfo) (dep : DependencyRef) :
    (Edge.new a dep).toOption = (Edge.new b dep).toOption := by
  unfold Edge.new
  cases isValidId dep.id with
  | false => rfl
  | true => cases VersionRange.parse (dep.range.getD []) <;> rfl

namespace Source

variable {source other : Source} {root : PackageInfo}

theorem edges_ok {info : PackageInfo} {edges : List Edge} :
    source.edges info = .ok edges ↔ ∃ deps, source.dependencies info = .ok deps ∧
      (∀ d ∈ deps, ∃ e, Edge.new info d = .ok e) ∧
        edges = deps.filterMap fun d => (Edge.new info d).toOption := by
  unfold Source.edges
  cases source.dependencies info with
  | error err => simp
  | ok deps => simp [mapM_edges]

theorem edges_sameKey {a b : PackageInfo} {edges : List Edge} (hkey : SameKey b a)
    (h : source.edges a = .ok edges) : source.edges b = .ok edges := by
  obtain ⟨deps, hdeps, hall, rfl⟩ := edges_ok.mp h
  rw [edges_ok]
  use deps, (source.dependencies_key b a hkey).trans hdeps
  constructor
  · intro d hd
    obtain ⟨e, he⟩ := hall d hd
    exact ⟨e, edge_new_ok.mpr (edge_new_ok.mp he)⟩
  · exact congrArg (deps.filterMap ·) (funext fun d => edge_new_toOption a b d)

/-- All that the source can be asked. -/
def full (source : Source) : Known where
  versions key := if Text.lower key = key then (source.versions key).toOption else none
  dependencies info := (source.edges info).toOption

theorem full_versions {key : Text} {vs : List PackageInfo} :
    source.full.versions key = some vs ↔ Text.lower key = key ∧ source.versions key = .ok vs := by
  simp only [full]
  split_ifs with hkey
  · cases source.versions key <;> simp [Except.toOption, hkey]
  · simp [hkey]

theorem full_dependencies {info : PackageInfo} {edges : List Edge} :
    source.full.dependencies info = some edges ↔ source.edges info = .ok edges := by
  simp only [full]
  cases source.edges info <;> simp [Except.toOption]

theorem full_ids (key : Text) (vs : List PackageInfo) (h : source.full.versions key = some vs) :
    ∀ v ∈ vs, idKey v = key := by
  obtain ⟨hkey, hvs⟩ := full_versions.mp h
  intro v hv
  rw [source.versions_id key vs hvs v hv, hkey]

theorem empty_le : Known.empty.Le source.full where
  versions _ _ h := by cases h
  dependencies _ _ h := by cases h

theorem learnVersions_le {known : Known} (h : known.Le source.full) {id : Text}
    {vs : List PackageInfo} (hvs : source.versions id = .ok vs) :
    (known.learnVersions id vs).Le source.full where
  versions key vs' hkey := by
    simp only [Known.learnVersions] at hkey
    split_ifs at hkey with heq
    · cases hkey
      rw [full_versions, heq]
      exact ⟨Text.lower_lower id, (source.versions_lower id).trans hvs⟩
    · exact h.versions key vs' hkey
  dependencies := h.dependencies

theorem learnDependencies_le {known : Known} (h : known.Le source.full) {info : PackageInfo}
    {edges : List Edge} (hedges : source.edges info = .ok edges) :
    (known.learnDependencies info edges).Le source.full where
  versions := h.versions
  dependencies other edges' hother := by
    simp only [Known.learnDependencies] at hother
    split_ifs at hother with hkey
    · cases hother
      exact full_dependencies.mpr (edges_sameKey hkey hedges)
    · exact h.dependencies other edges' hother

end Source

section Ends

variable {source : Source} {root : PackageInfo}

theorem Known.Le.refl (known : Known) : known.Le known := ⟨fun _ _ h => h, fun _ _ h => h⟩

theorem tryEach_fail {f : PackageInfo → State → Searched} {P : Unresolvable → Prop}
    (hf : ∀ c st why, f c st = .error (.fail why) → P why) {cs : List PackageInfo} {st : State}
    {why : Unresolvable} (h : tryEach f cs st = .error (.fail why)) : P why := by
  induction cs generalizing st with
  | nil => cases h
  | cons c cs ih =>
    unfold tryEach at h
    cases hc : f c st with
    | error stop =>
      rw [hc] at h
      cases h
      exact hf c st why hc
    | ok result =>
      obtain ⟨_ | l, st'⟩ := result
      · rw [hc] at h
        exact ih h
      · rw [hc] at h
        cases h

theorem edgesOf_fail {known : Known} {chosen : List PackageInfo} {why : Unresolvable} :
    edgesOf known chosen ≠ .error (.fail why) := by
  induction chosen with
  | nil => simp [edgesOf]
  | cons first rest ih =>
    unfold edgesOf
    cases known.dependencies first with
    | none => simp
    | some deps =>
      cases hrest : edgesOf known rest with
      | error stop =>
        rw [hrest] at ih
        simpa [Except.map] using ih
      | ok edges => simp [Except.map]

/-- A search itself fails at a limit only. -/
theorem search_fail {known : Known} {room : ℕ} {chosen : List PackageInfo} {st : State}
    {why : Unresolvable} (h : search known root room chosen st = .error (.fail why)) :
    why = .tries root ∨ why = .packages root := by
  induction room using Nat.strong_induction_on generalizing chosen st why with
  | _ room ih =>
    unfold search at h
    simp only at h
    split_ifs at h
    · cases h
      exact Or.inl rfl
    · cases hedges : edgesOf known chosen with
      | error stop =>
        rw [hedges] at h
        cases h
        exact absurd hedges edgesOf_fail
      | ok edges =>
        simp only [hedges] at h
        cases hclash : firstClash chosen edges with
        | some why => simp [hclash] at h
        | none =>
          rw [hclash] at h
          cases hnext : nextEdge chosen edges with
          | none => simp [hnext] at h
          | some asked =>
            rw [hnext] at h
            cases room with
            | zero =>
              cases h
              exact Or.inr rfl
            | succ room =>
              cases hversions : known.versions asked.2.key with
              | none => simp [hversions] at h
              | some versions =>
                simp only [hversions] at h
                split_ifs at h
                exact tryEach_fail (P := fun why => why = .tries root ∨ why = .packages root)
                  (fun c st why hc => ih room (Nat.lt_succ_self room) hc) h

/-- The closure is made of a row of choices whose dependencies are all known. -/
theorem solve_ok {known : Known} {closure : Closure} (hle : known.Le source.full)
    (h : solve known root = .ok closure) : ∃ members, LeadsTo source.full root [root] members ∧
      closure = closureOf source.full members := by
  unfold solve at h
  cases hsearch : search known root (maxPackages - 1) [root] ⟨0, none⟩ with
  | error stop => simp [hsearch] at h
  | ok result =>
    obtain ⟨_ | members, st⟩ := result
    · simp [hsearch] at h
    · rw [hsearch] at h
      cases h
      use members, (search_spec hle hsearch).1 members rfl
      obtain ⟨-, edges, hedges, -⟩ := (search_spec (.refl known) hsearch).1 members rfl
      have hall : allEdges known members = allEdges source.full members := by
        unfold allEdges
        rw [List.flatMap_def, List.flatMap_def]
        congr 1
        apply List.map_congr_left
        intro m hm
        obtain ⟨deps, hdeps⟩ := known_of_edgesOf hedges hm
        rw [hdeps, hle.dependencies m deps hdeps]
      unfold closureOf
      rw [hall]

theorem solve_noSet {known : Known} {r : PackageInfo} {conflict : String}
    (hle : known.Le source.full) (h : solve known root = .error (.fail (.noSet r conflict))) :
    ∀ members, ¬LeadsTo source.full root [root] members := by
  unfold solve at h
  cases hsearch : search known root (maxPackages - 1) [root] ⟨0, none⟩ with
  | error stop =>
    rw [hsearch] at h
    cases h
    rcases search_fail hsearch with hwhy | hwhy <;> cases hwhy
  | ok result =>
    obtain ⟨_ | members, st⟩ := result
    · exact (search_spec hle hsearch).2 rfl
    · simp [hsearch] at h

theorem edges_fail {info : PackageInfo} {why : Unresolvable}
    (h : source.edges info = .error (.unresolvable why)) : ∃ text, why = .dependency info text := by
  unfold Source.edges at h
  cases hdeps : source.dependencies info with
  | error err => simp [hdeps] at h
  | ok deps =>
    rw [hdeps] at h
    change deps.mapM (Edge.new info) = _ at h
    clear hdeps
    induction deps with
    | nil => cases h
    | cons d deps ih =>
      rw [List.mapM_cons] at h
      cases hnew : Edge.new info d with
      | error err =>
        rw [hnew] at h
        cases h
        unfold Edge.new at hnew
        split_ifs at hnew
        · cases hnew
          exact ⟨_, rfl⟩
        · split at hnew
          · cases hnew
            exact ⟨_, rfl⟩
          · cases hnew
      | ok e =>
        cases hrest : deps.mapM (Edge.new info) with
        | error err =>
          rw [hnew, hrest] at h
          cases h
          exact ih hrest
        | ok es =>
          rw [hnew, hrest] at h
          cases h

/-- A resolution that ends with a closure or without any fitting set has solved what it knew. -/
theorem resolveFrom_cases {lookups : ℕ} {known : Known} (hle : known.Le source.full) :
    (∀ closure, resolveFrom source root lookups known = .ok closure →
      ∃ known' : Known, known'.Le source.full ∧ solve known' root = .ok closure) ∧
    ∀ r conflict, resolveFrom source root lookups known =
        .error (.unresolvable (.noSet r conflict)) →
      ∃ known' : Known, known'.Le source.full ∧
        solve known' root = .error (.fail (.noSet r conflict)) := by
  induction lookups generalizing known with
  | zero =>
    constructor
    · intro closure h
      cases h
    · intro r conflict h
      cases h
  | succ lookups ih =>
    unfold resolveFrom
    cases hsolve : solve known root with
    | ok closure =>
      constructor
      · rintro closure' ⟨⟩
        exact ⟨known, hle, hsolve⟩
      · intro r conflict h
        cases h
    | error stop =>
      cases stop with
      | fail why =>
        constructor
        · intro closure h
          cases h
        · rintro r conflict ⟨⟩
          exact ⟨known, hle, hsolve⟩
      | need need =>
        cases need with
        | versions id =>
          dsimp only
          cases hversions : source.versions id with
          | error err =>
            constructor
            · intro closure h
              cases h
            · intro r conflict h
              cases h
          | ok versions => exact ih (Source.learnVersions_le hle hversions)
        | dependencies info =>
          dsimp only
          cases hedges : source.edges info with
          | error err =>
            constructor
            · intro closure h
              cases h
            · rintro r conflict ⟨⟩
              obtain ⟨text, htext⟩ := edges_fail hedges
              cases htext
          | ok edges => exact ih (Source.learnDependencies_le hle hedges)

theorem resolve_ok {closure : Closure} (h : resolve source root = .ok closure) :
    ∃ members, Assignment source.full root members ∧ InOrder source.full root members ∧
      closure = closureOf source.full members := by
  obtain ⟨known, hle, hsolve⟩ := (resolveFrom_cases Source.empty_le).1 closure h
  obtain ⟨members, hleads, hclosure⟩ := solve_ok hle hsolve
  obtain ⟨hfits, horder⟩ := hleads.fits Source.full_ids
  exact ⟨members, hfits, horder, hclosure⟩

theorem resolve_noSet {r : PackageInfo} {conflict : String}
    (h : resolve source root = .error (.unresolvable (.noSet r conflict)))
    {members : List PackageInfo} (hfits : Assignment source.full root members) :
    ¬InOrder source.full root members := by
  obtain ⟨known, hle, hsolve⟩ := (resolveFrom_cases Source.empty_le).2 r conflict h
  intro horder
  exact solve_noSet hle hsolve members (hfits.leadsTo horder)

end Ends

theorem require_infos (packages : List Resolved) (key : Text) (name : String) :
    (require packages key name).map (·.info) = packages.map (·.info) := by
  induction packages with
  | nil => rfl
  | cons p rest ih =>
    unfold require
    split_ifs
    · rfl
    · rw [List.map_cons, ih, List.map_cons]

theorem mem_require {packages : List Resolved}
    (honce : (packages.map (·.info)).Pairwise fun a b => idKey a ≠ idKey b) {key : Text}
    {name : String} {p : Resolved} (hp : p ∈ require packages key name) :
    ∃ q ∈ packages, q.info = p.info ∧
      p.requiredBy = q.requiredBy ++ if idKey q.info = key then [name] else [] := by
  induction packages with
  | nil => cases hp
  | cons first rest ih =>
    rw [List.map_cons, List.pairwise_cons] at honce
    unfold require at hp
    split_ifs at hp with hkey
    · rcases List.mem_cons.mp hp with rfl | hp
      · exact ⟨first, List.mem_cons_self, rfl, by rw [if_pos hkey]⟩
      · have hother : idKey p.info ≠ key := by
          rw [← hkey]
          exact (honce.1 p.info (List.mem_map_of_mem hp)).symm
        exact ⟨p, List.mem_cons_of_mem _ hp, rfl, by rw [if_neg hother, List.append_nil]⟩
    · rcases List.mem_cons.mp hp with rfl | hp
      · exact ⟨p, List.mem_cons_self, rfl, by rw [if_neg hkey, List.append_nil]⟩
      · obtain ⟨q, hq, hspec⟩ := ih honce.2 hp
        exact ⟨q, List.mem_cons_of_mem _ hq, hspec⟩

/-- The names noted at a package are those of the dependencies on its id. -/
theorem foldl_require (asked : List Asked) (packages : List Resolved)
    (honce : (packages.map (·.info)).Pairwise fun a b => idKey a ≠ idKey b) :
    (asked.foldl (fun packages (parent, edge) => require packages edge.key (shown parent))
        packages).map (·.info) = packages.map (·.info) ∧
      ∀ p ∈ asked.foldl (fun packages (parent, edge) => require packages edge.key (shown parent))
          packages,
        ∃ q ∈ packages, q.info = p.info ∧ p.requiredBy = q.requiredBy ++
          (asked.filter (·.2.key = idKey p.info)).map (shown ·.1) := by
  induction asked generalizing packages with
  | nil => exact ⟨rfl, fun p hp => ⟨p, hp, rfl, by simp⟩⟩
  | cons first rest ih =>
    obtain ⟨parent, edge⟩ := first
    have hinfos := require_infos packages edge.key (shown parent)
    obtain ⟨hmap, hmem⟩ := ih _ (hinfos ▸ honce)
    rw [List.foldl_cons]
    constructor
    · rw [hmap, hinfos]
    · intro p hp
      obtain ⟨q, hq, hqinfo, hqnames⟩ := hmem p hp
      obtain ⟨o, ho, hoinfo, honames⟩ := mem_require honce hq
      use o, ho, hoinfo.trans hqinfo
      rw [hqnames, honames, List.append_assoc, hoinfo, hqinfo, List.filter_cons]
      by_cases hkey : idKey p.info = edge.key
      · simp [hkey]
      · simp [hkey, Ne.symm hkey]

/-- The packages of a closure are the ones chosen, each with those that depend on it. -/
theorem closureOf_spec (known : Known) {members : List PackageInfo}
    (honce : members.Pairwise fun a b => idKey a ≠ idKey b) :
    (closureOf known members).packages.map (·.info) = members ∧
      ∀ p ∈ (closureOf known members).packages, ∀ name, name ∈ p.requiredBy ↔
        ∃ m ∈ members, shown m = name ∧ ∃ e, Asks known m e ∧ e.key = idKey p.info := by
  have hinit : (members.map fun m => (⟨m, []⟩ : Resolved)).map (·.info) = members := by
    rw [List.map_map]
    exact List.map_id members
  obtain ⟨hmap, hmem⟩ := foldl_require ((allEdges known members).filter (·.2.key ≠ cliPackage))
    (members.map (⟨·, []⟩)) (hinit.symm ▸ honce)
  constructor
  · exact hmap.trans hinit
  · intro p hp name
    obtain ⟨q, hq, -, hnames⟩ := hmem p hp
    obtain ⟨m, -, rfl⟩ := List.mem_map.mp hq
    rw [hnames]
    simp only [List.nil_append, List.mem_map, List.mem_filter, decide_eq_true_eq, allEdges,
      List.mem_flatMap, Prod.exists, Prod.mk.injEq]
    constructor
    · rintro ⟨m, e, ⟨⟨⟨parent, hparent, e', he', rfl, rfl⟩, hcli⟩, hkey⟩, rfl⟩
      cases hdeps : known.dependencies parent with
      | none => simp [hdeps] at he'
      | some deps =>
        rw [hdeps] at he'
        exact ⟨parent, hparent, rfl, e', ⟨deps, hdeps, he', hcli⟩, hkey⟩
    · rintro ⟨m, hm, rfl, e, ⟨deps, hdeps, he, hcli⟩, hkey⟩
      exact ⟨m, e, ⟨⟨⟨m, hm, e, by rw [hdeps]; exact he, rfl, rfl⟩, hcli⟩, hkey⟩, rfl⟩

/-- The sources list the same dependencies, each version's in some order. -/
structure Reordered (source other : Source) : Prop where
  versions : ∀ id, other.versions id = source.versions id
  dependencies : ∀ info,
    (∃ ds ds', source.dependencies info = .ok ds ∧ other.dependencies info = .ok ds' ∧
      ds.Perm ds') ∨
    ∃ err, source.dependencies info = .error err ∧ other.dependencies info = .error err

namespace Reordered

variable {source other : Source} {root : PackageInfo} {members : List PackageInfo}

theorem refl (source : Source) : Reordered source source where
  versions _ := rfl
  dependencies info := by
    cases hdeps : source.dependencies info with
    | error err => exact Or.inr ⟨err, rfl, rfl⟩
    | ok deps => exact Or.inl ⟨deps, deps, rfl, rfl, .refl deps⟩

theorem symm (h : Reordered source other) : Reordered other source where
  versions id := (h.versions id).symm
  dependencies info := by
    rcases h.dependencies info with ⟨ds, ds', hds, hds', hperm⟩ | ⟨err, herr, herr'⟩
    · exact Or.inl ⟨ds', ds, hds', hds, hperm.symm⟩
    · exact Or.inr ⟨err, herr', herr⟩

theorem full_versions (h : Reordered source other) :
    other.full.versions = source.full.versions := by
  funext key
  simp only [Source.full, h.versions]

theorem full_dependencies (h : Reordered source other) {info : PackageInfo} {edges : List Edge}
    (hedges : source.full.dependencies info = some edges) :
    ∃ edges', other.full.dependencies info = some edges' ∧ edges.Perm edges' := by
  obtain ⟨deps, hdeps, hall, rfl⟩ := Source.edges_ok.mp (Source.full_dependencies.mp hedges)
  rcases h.dependencies info with ⟨ds, ds', hds, hds', hperm⟩ | ⟨err, herr, -⟩
  · rw [hdeps] at hds
    cases hds
    use ds'.filterMap fun d => (Edge.new info d).toOption
    constructor
    · rw [Source.full_dependencies, Source.edges_ok]
      exact ⟨ds', hds', fun d hd => hall d (hperm.mem_iff.mpr hd), rfl⟩
    · exact hperm.filterMap _
  · rw [hdeps] at herr
    cases herr

theorem asks (h : Reordered source other) {m : PackageInfo} {e : Edge}
    (hasks : Asks source.full m e) : Asks other.full m e := by
  obtain ⟨deps, hdeps, he, hcli⟩ := hasks
  obtain ⟨deps', hdeps', hperm⟩ := h.full_dependencies hdeps
  exact ⟨deps', hdeps', hperm.mem_iff.mp he, hcli⟩

/-- A set of versions fits in every order of listing. -/
theorem assignment (h : Reordered source other) (hfits : Assignment source.full root members) :
    Assignment other.full root members where
  root_mem := hfits.root_mem
  once := hfits.once
  listed m hm := by
    rw [h.full_versions]
    exact hfits.listed m hm
  described m hm := by
    obtain ⟨deps, hdeps⟩ := hfits.described m hm
    obtain ⟨deps', hdeps', -⟩ := h.full_dependencies hdeps
    exact ⟨deps', hdeps'⟩
  closed m hm e hasks := hfits.closed m hm e (h.symm.asks hasks)
  allowed m hm := by
    rcases hfits.allowed m hm with hroot | hpre | hrelease | ⟨p, hp, e, hasks, hkey, hpins⟩
    · exact Or.inl hroot
    · exact Or.inr (Or.inl hpre)
    · exact Or.inr (Or.inr (Or.inl hrelease))
    · exact Or.inr (Or.inr (Or.inr ⟨p, hp, e, h.asks hasks, hkey, hpins⟩))

end Reordered

/-- The root first, then each package of a set that fits, with exactly the members that ask for
it. -/
structure Sound (source : Source) (root : PackageInfo) (closure : Closure) : Prop where
  root_first : (closure.packages.map (·.info)).head? = some root
  fits : Assignment source.full root (closure.packages.map (·.info))
  required : ∀ p ∈ closure.packages, ∀ name, name ∈ p.requiredBy ↔
    ∃ m ∈ closure.packages.map (·.info), shown m = name ∧
      ∃ e, Asks source.full m e ∧ e.key = idKey p.info

/-- The resolution reports that no set of versions fits. -/
def NoSet (source : Source) (root : PackageInfo) : Prop :=
  ∃ r conflict, resolve source root = .error (.unresolvable (.noSet r conflict))

/-- The resolution ends with a closure, or with the report that none fits; no limit is reached. -/
def Decides (source : Source) (root : PackageInfo) : Prop :=
  (∃ closure, resolve source root = .ok closure) ∨ NoSet source root

/-- A resolution is sound, fails only where no set of versions fits, and ends in the one way or the
other in whatever order dependencies are listed. -/
structure Faithful (source : Source) (root : PackageInfo) : Prop where
  sound : ∀ closure, resolve source root = .ok closure → Sound source root closure
  complete : NoSet source root → ∀ members, ¬Assignment source.full root members
  ordered : ∀ other, Reordered source other →
    ((∃ closure, resolve source root = .ok closure) → ¬NoSet other root) ∧
      (NoSet source root → ¬∃ closure, resolve other root = .ok closure)

section Faithful

variable {source other : Source} {root : PackageInfo}

theorem resolve_sound {closure : Closure} (h : resolve source root = .ok closure) :
    Sound source root closure := by
  obtain ⟨members, hfits, horder, rfl⟩ := resolve_ok h
  obtain ⟨hinfos, hrequired⟩ := closureOf_spec source.full hfits.once
  constructor
  · rw [hinfos]
    exact horder.1
  · rwa [hinfos]
  · intro p hp name
    rw [hinfos]
    exact hrequired p hp name

/-- A resolution is faithful just when, in every order of listing in which no limit is reached, a
set of versions that fits leaves one that can be taken in that order: each member asked for by the
first open dependency of those before it, and each pre-release under a stable root pinned by one of
them. -/
theorem faithful_iff (source : Source) (root : PackageInfo) (hdecides : Decides source root) :
    Faithful source root ↔ ∀ other, Reordered source other → Decides other root →
      (∃ members, Assignment source.full root members) →
        ∃ members, Assignment other.full root members ∧ InOrder other.full root members := by
  constructor
  · rintro h other hother hdecides' ⟨members, hfits⟩
    obtain ⟨closure, hclosure⟩ := hdecides.resolve_right fun hno => h.complete hno members hfits
    obtain ⟨closure', hclosure'⟩ :=
      hdecides'.resolve_right ((h.ordered other hother).1 ⟨closure, hclosure⟩)
    obtain ⟨members', hfits', horder', -⟩ := resolve_ok hclosure'
    exact ⟨members', hfits', horder'⟩
  · intro h
    have hcomplete (other : Source) (hother : Reordered source other) (hno : NoSet other root)
        (members : List PackageInfo) : ¬Assignment source.full root members := by
      intro hfits
      obtain ⟨members', hfits', horder'⟩ := h other hother (Or.inr hno) ⟨members, hfits⟩
      obtain ⟨r, conflict, hresolve⟩ := hno
      exact resolve_noSet hresolve hfits' horder'
    constructor
    · exact fun closure hclosure => resolve_sound hclosure
    · exact hcomplete source (.refl source)
    · intro other hother
      constructor
      · rintro ⟨closure, hclosure⟩ hno
        obtain ⟨members, hfits, -, -⟩ := resolve_ok hclosure
        exact hcomplete other hother hno members hfits
      · rintro hno ⟨closure, hclosure⟩
        obtain ⟨members, hfits, -, -⟩ := resolve_ok hclosure
        exact hcomplete source (.refl source) hno members (hother.symm.assignment hfits)

end Faithful

/-! A sample: an application that needs a library and a tool, where the tool pins a pre-release of
the library, which is all there is of it. -/

def sampleVersion (pre : List Text) : Versions.NuGetVersion := ⟨1, 0, 0, 0, pre, none, []⟩

def sampleInfo (id : String) (pre : List Text) : PackageInfo :=
  ⟨id.toList, sampleVersion pre, true, none, none⟩

def sampleApp : PackageInfo := sampleInfo "app" []
def sampleTool : PackageInfo := sampleInfo "tool" []
def sampleLib : PackageInfo := sampleInfo "lib" ["beta".toList]

/-- What the packages depend on, by id; the application lists its dependencies so. -/
def sampleDependencies (listing : List String) (key : Text) : List DependencyRef :=
  if key = "app".toList then listing.map (⟨·.toList, none⟩)
  else if key = "tool".toList then [⟨"lib".toList, some "[1.0.0-beta]".toList⟩]
  else []

def sampleSource (listing : List String) : Source where
  versions id := .ok ([sampleApp, sampleTool, sampleLib].filter (idKey · = Text.lower id))
  dependencies info := .ok (sampleDependencies listing (idKey info))
  versions_lower id := by rw [Text.lower_lower]
  versions_id id vs h := by
    cases h
    intro v hv
    exact of_decide_eq_true (List.mem_filter.mp hv).2
  dependencies_key a b h := by rw [h.1]

theorem sample_reordered : Reordered (sampleSource ["lib", "tool"]) (sampleSource ["tool", "lib"]) where
  versions _ := rfl
  dependencies info := by
    left
    refine ⟨_, _, rfl, rfl, ?_⟩
    unfold sampleDependencies
    split_ifs
    · exact .swap _ _ _
    · exact .refl _
    · exact .refl _

def isNoSet (outcome : Except ClosureError Closure) : Bool :=
  match outcome with
  | .error (.unresolvable (.noSet _ _)) => true
  | _ => false

theorem noSet_of {source : Source} {root : PackageInfo} (h : isNoSet (resolve source root) = true) :
    NoSet source root := by
  cases hresolve : resolve source root with
  | ok closure => simp [hresolve, isNoSet] at h
  | error err =>
    cases err with
    | upstream err => simp [hresolve, isNoSet] at h
    | unresolvable why =>
      cases why with
      | noSet r conflict => exact ⟨r, conflict, hresolve⟩
      | _ => simp [hresolve, isNoSet] at h

theorem sample_noSet : NoSet (sampleSource ["lib", "tool"]) sampleApp :=
  noSet_of (by decide +kernel)

theorem sample_resolved :
    ∃ closure, resolve (sampleSource ["tool", "lib"]) sampleApp = .ok closure := by
  have hpackages : ((resolve (sampleSource ["tool", "lib"]) sampleApp).toOption.map fun c =>
      c.packages.map (·.info)) = some [sampleApp, sampleTool, sampleLib] := by
    decide +kernel
  cases hresolve : resolve (sampleSource ["tool", "lib"]) sampleApp with
  | ok closure => exact ⟨closure, rfl⟩
  | error err =>
    rw [hresolve] at hpackages
    cases hpackages

theorem faithful_iff_sample : Decides (sampleSource ["lib", "tool"]) sampleApp ∧
    (Faithful (sampleSource ["lib", "tool"]) sampleApp ↔
      ∀ other, Reordered (sampleSource ["lib", "tool"]) other → Decides other sampleApp →
        (∃ members, Assignment (sampleSource ["lib", "tool"]).full sampleApp members) →
          ∃ members, Assignment other.full sampleApp members ∧
            InOrder other.full sampleApp members) :=
  ⟨Or.inr sample_noSet, faithful_iff _ _ (Or.inr sample_noSet)⟩

/-- With the library listed first, no pre-release of it is a candidate, and no set is reported to
fit; with the tool listed first, the very set is found. -/
theorem not_faithful : NoSet (sampleSource ["lib", "tool"]) sampleApp ∧
    (∃ members, Assignment (sampleSource ["lib", "tool"]).full sampleApp members) ∧
      ¬Faithful (sampleSource ["lib", "tool"]) sampleApp := by
  use sample_noSet
  obtain ⟨closure, hclosure⟩ := sample_resolved
  obtain ⟨members, hfits, -, -⟩ := resolve_ok hclosure
  constructor
  · exact ⟨members, sample_reordered.symm.assignment hfits⟩
  · intro h
    exact (h.ordered _ sample_reordered).2 sample_noSet ⟨closure, hclosure⟩

end YaNuget.Internalize.Closures
