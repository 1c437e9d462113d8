import Mathlib.Data.List.Nodup
import Mathlib.Logic.Relation
import YaNuget.Internalize.Closures

/-!
# What the search for a closure finds

A search that ends with packages has chosen one after the other, each a
candidate for the first dependency that was open. A search that ends without
any has tried every such row of choices.
-/
namespace YaNuget.Internalize.Closures

open Versions Relation

/-- Whatever is known in the first is known in the second. -/
structure Known.Le (known full : Known) : Prop where
  versions : ∀ key vs, known.versions key = some vs → full.versions key = some vs
  dependencies : ∀ info es, known.dependencies info = some es → full.dependencies info = some es

theorem edgesOf_mono {known full : Known} (h : known.Le full) {chosen : List PackageInfo}
    {edges : List Asked} (hedges : edgesOf known chosen = .ok edges) :
    edgesOf full chosen = .ok edges := by
  induction chosen generalizing edges with
  | nil => exact hedges
  | cons parent rest ih =>
    unfold edgesOf at hedges ⊢
    cases hdeps : known.dependencies parent with
    | none => simp [hdeps] at hedges
    | some deps =>
      cases hrest : edgesOf known rest with
      | error stop => simp [hdeps, hrest, Except.map] at hedges
      | ok more =>
        rw [h.dependencies parent deps hdeps, ih hrest]
        rw [hdeps, hrest] at hedges
        exact hedges

/-- The dependencies of what is chosen are known, and those on the CLI are left out. -/
theorem mem_edgesOf {known : Known} {chosen : List PackageInfo} {edges : List Asked}
    (h : edgesOf known chosen = .ok edges) {parent : PackageInfo} {edge : Edge} :
    (parent, edge) ∈ edges ↔ parent ∈ chosen ∧
      ∃ deps, known.dependencies parent = some deps ∧ edge ∈ deps ∧ edge.key ≠ cliPackage := by
  induction chosen generalizing edges with
  | nil =>
    cases h
    simp
  | cons first rest ih =>
    unfold edgesOf at h
    cases hdeps : known.dependencies first with
    | none => simp [hdeps] at h
    | some deps =>
      cases hrest : edgesOf known rest with
      | error stop => simp [hdeps, hrest, Except.map] at h
      | ok more =>
        rw [hdeps, hrest] at h
        cases h
        rw [List.mem_append, ih hrest, List.mem_cons]
        constructor
        · rintro (hfirst | ⟨hmem, hrest⟩)
          · obtain ⟨e, he, heq⟩ := List.mem_map.mp hfirst
            cases heq
            rw [List.mem_filter, decide_eq_true_eq] at he
            exact ⟨Or.inl rfl, deps, hdeps, he⟩
          · exact ⟨Or.inr hmem, hrest⟩
        · rintro ⟨rfl | hmem, deps', hdeps', he⟩
          · left
            rw [hdeps] at hdeps'
            cases hdeps'
            exact List.mem_map.mpr ⟨edge, by simpa using he, rfl⟩
          · exact Or.inr ⟨hmem, deps', hdeps', he⟩

theorem edgesOf_of_known {known : Known} {chosen : List PackageInfo}
    (h : ∀ m ∈ chosen, ∃ deps, known.dependencies m = some deps) :
    ∃ edges, edgesOf known chosen = .ok edges := by
  induction chosen with
  | nil => exact ⟨[], rfl⟩
  | cons first rest ih =>
    obtain ⟨deps, hdeps⟩ := h first List.mem_cons_self
    obtain ⟨more, hmore⟩ := ih fun m hm => h m (List.mem_cons_of_mem _ hm)
    unfold edgesOf
    rw [hdeps, hmore]
    exact ⟨_, rfl⟩

theorem known_of_edgesOf {known : Known} {chosen : List PackageInfo} {edges : List Asked}
    (h : edgesOf known chosen = .ok edges) {parent : PackageInfo} (hmem : parent ∈ chosen) :
    ∃ deps, known.dependencies parent = some deps := by
  induction chosen generalizing edges with
  | nil => cases hmem
  | cons first rest ih =>
    unfold edgesOf at h
    cases hdeps : known.dependencies first with
    | none => simp [hdeps] at h
    | some deps =>
      cases hrest : edgesOf known rest with
      | error stop => simp [hdeps, hrest, Except.map] at h
      | ok more =>
        rcases List.mem_cons.mp hmem with rfl | hmem
        · exact ⟨deps, hdeps⟩
        · exact ih hrest hmem

/-- What is chosen is extended by a candidate for its first open dependency. -/
def Chooses (known : Known) (root : PackageInfo) (chosen chosen' : List PackageInfo) : Prop :=
  ∃ edges dependent next versions c, edgesOf known chosen = .ok edges ∧
    firstClash chosen edges = none ∧ nextEdge chosen edges = some (dependent, next) ∧
    known.versions next.key = some versions ∧
    c ∈ candidates root.version.isPrerelease (edges.filter (·.2.key = next.key)) versions ∧
    chosen' = chosen ++ [c]

/-- Every dependency of what is chosen is chosen too, and fits. -/
def Complete (known : Known) (chosen : List PackageInfo) : Prop :=
  ∃ edges, edgesOf known chosen = .ok edges ∧ firstClash chosen edges = none ∧
    nextEdge chosen edges = none

/-- A row of choices leads from the one to the other, which is complete. -/
def LeadsTo (known : Known) (root : PackageInfo) (chosen closure : List PackageInfo) : Prop :=
  ReflTransGen (Chooses known root) chosen closure ∧ Complete known closure

theorem LeadsTo.cases {known : Known} {root : PackageInfo} {chosen closure : List PackageInfo}
    (h : LeadsTo known root chosen closure) :
    (closure = chosen ∧ Complete known chosen) ∨
      ∃ chosen', Chooses known root chosen chosen' ∧ LeadsTo known root chosen' closure := by
  obtain ⟨hpath, hcomplete⟩ := h
  rcases hpath.cases_head with rfl | ⟨chosen', hstep, hrest⟩
  · exact Or.inl ⟨rfl, hcomplete⟩
  · exact Or.inr ⟨chosen', hstep, hrest, hcomplete⟩

theorem tryEach_spec {f : PackageInfo → State → Searched}
    {P : PackageInfo → List PackageInfo → Prop} {cs : List PackageInfo} {st st' : State} {found : Option (List PackageInfo)}
    (hf : ∀ c ∈ cs, ∀ st found st', f c st = .ok (found, st') →
      (∀ l ∈ found, P c l) ∧ (found = none → ∀ l, ¬P c l))
    (h : tryEach f cs st = .ok (found, st')) :
    (∀ l ∈ found, ∃ c ∈ cs, P c l) ∧ (found = none → ∀ c ∈ cs, ∀ l, ¬P c l) := by
  induction cs generalizing st with
  | nil =>
    cases h
    simp
  | cons c cs ih =>
    unfold tryEach at h
    cases hc : f c st with
    | error stop => simp [hc] at h
    | ok result =>
      obtain ⟨first, st₁⟩ := result
      obtain ⟨hsome, hnone⟩ := hf c List.mem_cons_self st first st₁ hc
      cases first with
      | some l =>
        rw [hc] at h
        cases h
        constructor
        · rintro l' ⟨⟩
          exact ⟨c, List.mem_cons_self, hsome l rfl⟩
        · simp
      | none =>
        rw [hc] at h
        obtain ⟨hsome', hnone'⟩ := ih (fun c' hc' => hf c' (List.mem_cons_of_mem c hc')) h
        constructor
        · intro l hl
          obtain ⟨c', hc', hP⟩ := hsome' l hl
          exact ⟨c', List.mem_cons_of_mem c hc', hP⟩
        · intro hfound c' hc'
          rcases List.mem_cons.mp hc' with rfl | hc'
          · exact hnone rfl
          · exact hnone' hfound c' hc'

/-- A search ends at a clash, where every dependency is chosen, or with one of the candidates for
the first that is not. -/
theorem search_cases {known : Known} {root : PackageInfo} {room : ℕ} {chosen : List PackageInfo}
    {st st' : State} {found : Option (List PackageInfo)}
    (h : search known root room chosen st = .ok (found, st')) :
    ∃ edges, edgesOf known chosen = .ok edges ∧
      ((firstClash chosen edges ≠ none ∧ found = none) ∨
        (firstClash chosen edges = none ∧ nextEdge chosen edges = none ∧ found = some chosen) ∨
        (firstClash chosen edges = none ∧ ∃ dependent next versions room' st₁,
          nextEdge chosen edges = some (dependent, next) ∧ room = room' + 1 ∧
          known.versions next.key = some versions ∧
          tryEach (fun c st => search known root room' (chosen ++ [c]) st)
            (candidates root.version.isPrerelease (edges.filter (·.2.key = next.key)) versions)
            st₁ = .ok (found, st'))) := by
  unfold search at h
  simp only at h
  split_ifs at h
  cases hedges : edgesOf known chosen with
  | error stop => simp [hedges] at h
  | ok edges =>
    use edges, rfl
    simp only [hedges] at h
    cases hclash : firstClash chosen edges with
    | some why =>
      left
      rw [hclash] at h
      cases h
      exact ⟨by simp, rfl⟩
    | none =>
      right
      rw [hclash] at h
      cases hnext : nextEdge chosen edges with
      | none =>
        left
        rw [hnext] at h
        cases h
        exact ⟨rfl, rfl, rfl⟩
      | some asked =>
        right
        obtain ⟨dependent, next⟩ := asked
        rw [hnext] at h
        cases room with
        | zero => cases h
        | succ room =>
          cases hversions : known.versions next.key with
          | none => simp [hversions] at h
          | some versions =>
            simp only [hversions] at h
            use rfl, dependent, next, versions, room
            split_ifs at h with hempty
            · rw [List.isEmpty_iff] at hempty
              rw [hempty]
              cases h
              exact ⟨_, rfl, rfl, hversions, rfl⟩
            · exact ⟨_, rfl, rfl, hversions, h⟩

/-- What a search finds is led to by a row of choices, and where it finds nothing there is no such
row. -/
theorem search_spec {known full : Known} (hle : known.Le full) {root : PackageInfo} {room : ℕ}
    {chosen : List PackageInfo} {st st' : State} {found : Option (List PackageInfo)}
    (h : search known root room chosen st = .ok (found, st')) :
    (∀ l ∈ found, LeadsTo full root chosen l) ∧
      (found = none → ∀ l, ¬LeadsTo full root chosen l) := by
  induction room using Nat.strong_induction_on generalizing chosen st st' found with
  | _ room ih =>
    obtain ⟨edges, hedges, hcases⟩ := search_cases h
    have hfull := edgesOf_mono hle hedges
    rcases hcases with ⟨hclash, rfl⟩ | ⟨hclash, hnext, rfl⟩ |
      ⟨hclash, dependent, next, versions, room', st₁, hnext, rfl, hversions, htry⟩
    · constructor
      · simp
      · rintro - l hl
        rcases hl.cases with ⟨-, edges', hedges', hclash', -⟩ |
          ⟨-, ⟨edges', -, -, -, -, hedges', hclash', -⟩, -⟩
        · rw [hfull] at hedges'
          cases hedges'
          exact hclash hclash'
        · rw [hfull] at hedges'
          cases hedges'
          exact hclash hclash'
    · constructor
      · rintro l ⟨⟩
        exact ⟨.refl, edges, hfull, hclash, hnext⟩
      · simp
    · have hspec := tryEach_spec (P := fun c l => LeadsTo full root (chosen ++ [c]) l)
        (fun c _ st found st' hc => ih room' (Nat.lt_succ_self room') hc) htry
      have hfullVersions := hle.versions _ _ hversions
      constructor
      · intro l hl
        obtain ⟨c, hc, hpath, hcomplete⟩ := hspec.1 l hl
        exact ⟨.head ⟨edges, dependent, next, versions, c, hfull, hclash, hnext, hfullVersions, hc,
          rfl⟩ hpath, hcomplete⟩
      · intro hfound l hl
        rcases hl.cases with ⟨-, edges', hedges', -, hnext'⟩ |
          ⟨-, ⟨edges', dependent', next', versions', c, hedges', -, hnext', hversions', hc, rfl⟩,
            hrest⟩
        · rw [hfull] at hedges'
          cases hedges'
          rw [hnext] at hnext'
          cases hnext'
        · rw [hfull] at hedges'
          cases hedges'
          rw [hnext] at hnext'
          cases hnext'
          rw [hfullVersions] at hversions'
          cases hversions'
          exact hspec.2 hfound c hc l hrest

def Asks (known : Known) (dependent : PackageInfo) (edge : Edge) : Prop :=
  ∃ deps, known.dependencies dependent = some deps ∧ edge ∈ deps ∧ edge.key ≠ cliPackage

/-- The pre-release rule: a pre-release is taken under a pre-release root, or when one of the
packages pins it. -/
def Allowed (known : Known) (root : PackageInfo) (members : List PackageInfo) (info : PackageInfo) :
    Prop :=
  root.version.isPrerelease = true ∨ info.version.isPrerelease = false ∨
    ∃ p ∈ members, ∃ e, Asks known p e ∧ e.key = idKey info ∧ pins e.range info.version = true

/-- A set of versions that fits: one of each id, with everything that a member depends on, in every
range that the members have for it. -/
structure Assignment (known : Known) (root : PackageInfo) (members : List PackageInfo) : Prop where
  root_mem : root ∈ members
  once : members.Pairwise fun a b => idKey a ≠ idKey b
  listed : ∀ m ∈ members, m = root ∨ ∃ vs, known.versions (idKey m) = some vs ∧ m ∈ vs
  described : ∀ m ∈ members, ∃ deps, known.dependencies m = some deps
  closed : ∀ m ∈ members, ∀ e, Asks known m e →
    ∃ c ∈ members, idKey c = e.key ∧ e.range.contains c.version = true
  allowed : ∀ m ∈ members, m = root ∨ Allowed known root members m

/-- Each member after the first is what the first open dependency of those before it asks for, and
is allowed by these alone. -/
def InOrder (known : Known) (root : PackageInfo) (members : List PackageInfo) : Prop :=
  members.head? = some root ∧ ∀ before m after, members = before ++ m :: after → before ≠ [] →
    ∃ edges dependent next, edgesOf known before = .ok edges ∧
      nextEdge before edges = some (dependent, next) ∧ next.key = idKey m ∧
      Allowed known root before m

section Chosen

variable {known : Known} {root m : PackageInfo} {chosen members : List PackageInfo}
  {edges : List Asked}

theorem chosenAs_eq_none {key : Text} :
    chosenAs chosen key = none ↔ ∀ c ∈ chosen, idKey c ≠ key := by
  simp [chosenAs, List.find?_eq_none]

theorem of_chosenAs {key : Text} {c : PackageInfo} (h : chosenAs chosen key = some c) :
    c ∈ chosen ∧ idKey c = key :=
  ⟨List.mem_of_find?_eq_some h, by simpa using List.find?_some h⟩

theorem firstClash_eq_none : firstClash chosen edges = none ↔
    ∀ p e, (p, e) ∈ edges → ∀ c, chosenAs chosen e.key = some c →
      e.range.contains c.version = true := by
  simp only [firstClash, List.findSome?_eq_none_iff, Prod.forall]
  constructor
  · intro h p e hmem c hc
    have hnone := h p e hmem
    rw [hc] at hnone
    by_contra hnot
    rw [Bool.not_eq_true] at hnot
    simp [hnot] at hnone
  · intro h p e hmem
    cases hc : chosenAs chosen e.key with
    | none => rfl
    | some c => simp [h p e hmem c hc]

theorem nextEdge_eq_none : nextEdge chosen edges = none ↔
    ∀ p e, (p, e) ∈ edges → ∃ c, chosenAs chosen e.key = some c := by
  simp only [nextEdge, List.find?_eq_none, Bool.not_eq_true, Option.isNone_eq_false_iff,
    Option.isSome_iff_exists, Prod.forall]

theorem of_nextEdge {dependent : PackageInfo} {next : Edge}
    (h : nextEdge chosen edges = some (dependent, next)) :
    (dependent, next) ∈ edges ∧ ∀ c ∈ chosen, idKey c ≠ next.key := by
  constructor
  · exact List.mem_of_find?_eq_some h
  · have hnone := List.find?_some h
    rw [Option.isNone_iff_eq_none] at hnone
    exact chosenAs_eq_none.mp hnone

theorem mem_asks (h : edgesOf known chosen = .ok edges) {p : PackageInfo} {e : Edge} :
    (p, e) ∈ edges ↔ p ∈ chosen ∧ Asks known p e :=
  mem_edgesOf h

theorem Allowed.mono {before : List PackageInfo} (hsub : ∀ c ∈ before, c ∈ members)
    (h : Allowed known root before m) : Allowed known root members m := by
  rcases h with h | h | ⟨p, hp, hpins⟩
  · exact Or.inl h
  · exact Or.inr (Or.inl h)
  · exact Or.inr (Or.inr ⟨p, hsub p hp, hpins⟩)

/-- A candidate is a version that every range on its id holds and the pre-release rule allows. -/
theorem mem_candidates (hedges : edgesOf known chosen = .ok edges) {key : Text}
    {versions : List PackageInfo} {c : PackageInfo} (hkey : idKey c = key) :
    c ∈ candidates root.version.isPrerelease (edges.filter (·.2.key = key)) versions ↔
      c ∈ versions ∧
        (∀ p ∈ chosen, ∀ e, Asks known p e → e.key = key → e.range.contains c.version = true) ∧
        Allowed known root chosen c := by
  have hfit : c ∈ fitting root.version.isPrerelease (edges.filter (·.2.key = key)) versions ↔
      c ∈ versions ∧
        (∀ p ∈ chosen, ∀ e, Asks known p e → e.key = key → e.range.contains c.version = true) ∧
        Allowed known root chosen c := by
    simp only [fitting, List.mem_filter, List.mem_reverse, Bool.and_eq_true, List.all_eq_true,
      Bool.or_eq_true, List.any_eq_true, Bool.not_eq_true', decide_eq_true_eq, Prod.forall,
      Prod.exists, mem_asks hedges, Allowed, hkey]
    constructor
    · rintro ⟨hc, hall, hrule⟩
      use hc
      constructor
      · intro p hp e hasks he
        exact hall p e ⟨⟨hp, hasks⟩, he⟩
      · rcases hrule with (⟨p, e, ⟨⟨hp, hasks⟩, he⟩, hpins⟩ | hpre) | hrelease
        · exact Or.inr (Or.inr ⟨p, hp, e, hasks, he, hpins⟩)
        · exact Or.inl hpre
        · exact Or.inr (Or.inl hrelease)
    · rintro ⟨hc, hall, hrule⟩
      use hc
      constructor
      · rintro p e ⟨⟨hp, hasks⟩, he⟩
        exact hall p hp e hasks he
      · rcases hrule with hpre | hrelease | ⟨p, hp, e, hasks, he, hpins⟩
        · exact Or.inl (Or.inr hpre)
        · exact Or.inr hrelease
        · exact Or.inl (Or.inl ⟨p, e, ⟨⟨hp, hasks⟩, he⟩, hpins⟩)
  rw [← hfit, candidates, List.mem_append, List.mem_filter, List.mem_filter]
  cases c.listed <;> simp

/-- What a row of choices keeps. -/
structure Row (known : Known) (root : PackageInfo) (chosen : List PackageInfo) : Prop where
  once : chosen.Pairwise fun a b => idKey a ≠ idKey b
  listed : ∀ m ∈ chosen, m = root ∨ ∃ vs, known.versions (idKey m) = some vs ∧ m ∈ vs
  inOrder : InOrder known root chosen

theorem Row.start : Row known root [root] where
  once := List.pairwise_singleton _ _
  listed m hm := Or.inl (List.mem_singleton.mp hm)
  inOrder := by
    use rfl
    intro before m after h hne
    cases before with
    | nil => exact absurd rfl hne
    | cons c rest => simp at h

theorem split_concat {before after : List PackageInfo} {c : PackageInfo}
    (h : chosen ++ [c] = before ++ m :: after) :
    (before = chosen ∧ m = c) ∨ ∃ rest, chosen = before ++ m :: rest := by
  obtain rfl | ⟨rest, last, rfl⟩ := List.eq_nil_or_concat after
  · obtain ⟨rfl, hm⟩ := List.append_inj' h rfl
    cases hm
    exact Or.inl ⟨rfl, rfl⟩
  · right
    rw [List.concat_eq_append, ← List.cons_append, ← List.append_assoc] at h
    exact ⟨rest, (List.append_inj' h rfl).1⟩

theorem Row.step (hids : ∀ key vs, known.versions key = some vs → ∀ v ∈ vs, idKey v = key)
    (h : Row known root chosen) (hstep : Chooses known root chosen members) :
    Row known root members := by
  obtain ⟨edges, dependent, next, versions, c, hedges, -, hnext, hversions, hc, rfl⟩ := hstep
  have hmem : c ∈ versions := by
    rw [candidates, List.mem_append, List.mem_filter, List.mem_filter, fitting, List.mem_filter,
      List.mem_reverse] at hc
    tauto
  have hkey := hids _ _ hversions c hmem
  obtain ⟨-, -, hallowed⟩ := (mem_candidates hedges hkey).mp hc
  constructor
  · rw [List.pairwise_append]
    use h.once, List.pairwise_singleton _ _
    intro a ha b hb
    rw [List.mem_singleton.mp hb, hkey]
    exact (of_nextEdge hnext).2 a ha
  · intro m hm
    rcases List.mem_append.mp hm with hm | hm
    · exact h.listed m hm
    · rw [List.mem_singleton.mp hm, hkey]
      exact Or.inr ⟨versions, hversions, hmem⟩
  · constructor
    · rw [List.head?_append, h.inOrder.1]
      rfl
    · intro before m after hsplit hne
      rcases split_concat hsplit with ⟨rfl, rfl⟩ | ⟨rest, hrest⟩
      · exact ⟨edges, dependent, next, hedges, hnext, hkey.symm, hallowed⟩
      · exact h.inOrder.2 before m rest hrest hne

/-- A row of choices that is complete is a set of versions that fits. -/
theorem Row.assignment (h : Row known root chosen) (hcomplete : Complete known chosen) :
    Assignment known root chosen := by
  obtain ⟨edges, hedges, hclash, hnext⟩ := hcomplete
  have hroot : root ∈ chosen := List.mem_of_mem_head? h.inOrder.1
  constructor
  · exact hroot
  · exact h.once
  · exact h.listed
  · exact fun m hm => known_of_edgesOf hedges hm
  · intro m hm e hasks
    have he := (mem_asks hedges).mpr ⟨hm, hasks⟩
    obtain ⟨c, hc⟩ := nextEdge_eq_none.mp hnext m e he
    obtain ⟨hmem, hkey⟩ := of_chosenAs hc
    exact ⟨c, hmem, hkey, firstClash_eq_none.mp hclash m e he c hc⟩
  · intro m hm
    obtain ⟨before, after, hsplit⟩ := List.append_of_mem hm
    by_cases hne : before = []
    · left
      have hhead := h.inOrder.1
      rw [hsplit, hne] at hhead
      simpa using hhead
    · right
      obtain ⟨-, -, -, -, -, -, hallowed⟩ := h.inOrder.2 before m after hsplit hne
      exact hallowed.mono fun c hc => hsplit ▸ List.mem_append_left _ hc

theorem LeadsTo.fits (hids : ∀ key vs, known.versions key = some vs → ∀ v ∈ vs, idKey v = key)
    (h : LeadsTo known root [root] members) :
    Assignment known root members ∧ InOrder known root members := by
  obtain ⟨hpath, hcomplete⟩ := h
  have hrow : Row known root members := by
    clear hcomplete
    induction hpath with
    | refl => exact .start
    | tail _ hstep ih => exact ih.step hids hstep
  exact ⟨hrow.assignment hcomplete, hrow.inOrder⟩

theorem Assignment.eq_of_key (h : Assignment known root members) {a b : PackageInfo}
    (ha : a ∈ members) (hb : b ∈ members) (hkey : idKey a = idKey b) : a = b :=
  List.inj_on_of_nodup_map (List.pairwise_map.mpr h.once) ha hb hkey

/-- A set of versions that fits, in such an order, is a row of choices that is complete. -/
theorem Assignment.leadsTo (h : Assignment known root members)
    (horder : InOrder known root members) : LeadsTo known root [root] members := by
  have hclash {part : List PackageInfo} {edges : List Asked} (hsub : ∀ c ∈ part, c ∈ members)
      (hedges : edgesOf known part = .ok edges) : firstClash part edges = none := by
    rw [firstClash_eq_none]
    intro p e he c hc
    obtain ⟨hp, hasks⟩ := (mem_asks hedges).mp he
    obtain ⟨hmem, hkey⟩ := of_chosenAs hc
    obtain ⟨c', hc', hkey', hcontains⟩ := h.closed p (hsub p hp) e hasks
    rwa [h.eq_of_key (hsub c hmem) hc' (hkey.trans hkey'.symm)]
  have hpath (after before : List PackageInfo) (hsplit : members = before ++ after)
      (hne : before ≠ []) : ReflTransGen (Chooses known root) before members := by
    induction after generalizing before with
    | nil =>
      rw [List.append_nil] at hsplit
      rw [hsplit]
    | cons c after ih =>
      have hsub : ∀ d ∈ before, d ∈ members := fun d hd => hsplit ▸ List.mem_append_left _ hd
      have hc : c ∈ members := hsplit ▸ List.mem_append_right _ List.mem_cons_self
      obtain ⟨edges, dependent, next, hedges, hnext, hkey, hallowed⟩ :=
        horder.2 before c after hsplit hne
      have hroot : root ∈ before := by
        have hhead := horder.1
        rw [hsplit, List.head?_append_of_ne_nil _ hne] at hhead
        exact List.mem_of_mem_head? hhead
      obtain ⟨versions, hversions, hmem⟩ := (h.listed c hc).resolve_left fun heq =>
        (of_nextEdge hnext).2 root hroot (by rw [hkey, heq])
      rw [← hkey] at hversions
      refine .head ⟨edges, dependent, next, versions, c, hedges, hclash hsub hedges, hnext,
        hversions, ?_, rfl⟩ (ih (before ++ [c]) (by rw [hsplit]; simp) (by simp))
      rw [mem_candidates hedges hkey.symm]
      use hmem
      constructor
      · intro p hp e hasks he
        obtain ⟨c', hc', hkey', hcontains⟩ := h.closed p (hsub p hp) e hasks
        rwa [h.eq_of_key hc hc' (by rw [hkey', he, hkey])]
      · exact hallowed
  obtain ⟨edges, hedges⟩ := edgesOf_of_known h.described
  have hnext : nextEdge members edges = none := by
    rw [nextEdge_eq_none]
    intro p e he
    obtain ⟨hp, hasks⟩ := (mem_asks hedges).mp he
    obtain ⟨c, hc, hkey, -⟩ := h.closed p hp e hasks
    rw [← Option.ne_none_iff_exists']
    intro hnone
    exact chosenAs_eq_none.mp hnone c hc hkey
  obtain ⟨after, hsplit⟩ : ∃ after, members = [root] ++ after := by
    cases members with
    | nil => simp [InOrder] at horder
    | cons first after =>
      have hfirst : first = root := by simpa using horder.1
      exact ⟨after, by rw [hfirst]; rfl⟩
  exact ⟨hpath after [root] hsplit (by simp), edges, hedges, hclash (fun _ h => h) hedges, hnext⟩

end Chosen

end YaNuget.Internalize.Closures
