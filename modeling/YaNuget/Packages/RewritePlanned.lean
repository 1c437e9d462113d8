import YaNuget.Data.Outcomes
import YaNuget.Packages.Rewrite

/-!
# What a rewrite changes

The output of a rewrite holds the input's entries in their order with the
planned differences and no others, up to two exceptions: a put over the
package's signature is lost, and directory entries whose names differ only in
case or separators stay as they are.
-/
namespace YaNuget.Rewriting

open Outcomes List

variable {Raw : Type}

def Entry.key (e : Entry Raw) : Text := normalizeEntry e.name

theorem Entry.key_eq {e e' : Entry Raw} (h : e'.name = e.name) : e'.key = e.key :=
  congrArg normalizeEntry h

section Specification

variable (L : Libraries Raw) (io : Io Raw) (plan : Rewrite)

def Holds (e : Entry Raw) (bytes : List UInt8) : Prop := L.zip.inflate e.raw = .ok bytes

def Source.content : Source → Except String (List UInt8)
  | .bytes content => .ok content
  | .file path => io.files path

def HoldsSource (e : Entry Raw) (source : Source) : Prop :=
  ∃ bytes, source.content io = .ok bytes ∧ Holds L e bytes

/-- The entry is neither removed nor the signature of a package that changes. -/
def stays (e : Entry Raw) : Bool :=
  e.key ∉ plan.remove.keys && (plan.isEmpty || e.key ≠ signature)

/-- The output has `e'` where the input has `e`; `names` are those of the output. -/
structure Becomes (names : List Text) (e e' : Entry Raw) : Prop where
  name : e'.name = e.name
  put : ∀ put, plan.put.get? e.key = some put → HoldsSource L io e' put.2
  manifest : isNuspec e.key = true → ∀ xml, plan.nuspec = some xml → Holds L e' (utf8 xml)
  contentTypes : e.key = contentTypes → plan.isEmpty = false →
    ∃ old new, readContentTypes L e = .ok old ∧
      completeContentTypes L.tokenizer L.debug old names = .ok new ∧ Holds L e' (utf8 new)
  coreProperties : isCore e.key = true → ∀ xml, plan.nuspec = some xml →
    ∃ nuspec, parseNuspec L xml = .ok nuspec ∧ Holds L e' (utf8 (coreProperties nuspec))
  other : plan.put.get? e.key = none → (isNuspec e.key = true → plan.nuspec = none) →
    (e.key = Rewriting.contentTypes → plan.isEmpty = true) →
    (isCore e.key = true → plan.nuspec = none) → e' = e

def isNew (entries : List (Entry Raw)) (put : Text × Text × Source) : Bool :=
  put.1 ∉ entries.map Entry.key

structure AsPlanned (entries out : List (Entry Raw)) : Prop where
  entries : ∃ old new, out = old ++ new ∧
    Forall₂ (Becomes L io plan (out.map Entry.key)) (entries.filter (stays plan)) old ∧
    Forall₂ (fun put e' => e'.name = put.2.1 ∧ HoldsSource L io e' put.2.2)
      (plan.put.entries.filter (isNew entries)) new
  puts : ∀ put ∈ plan.put.entries, ∃ e' ∈ out, e'.key = put.1 ∧ HoldsSource L io e' put.2.2
  distinct : (out.map Entry.key).Nodup

/-- The plan puts the package's own signature. -/
def PutsSignature (entries : List (Entry Raw)) : Prop :=
  signature ∈ plan.put.keys ∧ signature ∈ entries.map Entry.key

/-- The directory entries that stay have distinct names. -/
def DirectoriesDistinct (entries : List (Entry Raw)) : Prop :=
  (((entries.filter (stays plan)).map Entry.key).filter fun n => !isFileName n).Nodup

end Specification

section Decided

variable {plan : Rewrite} {entries : List (Entry Raw)} {d d' : Decided Raw}

def LeavesReserved (plan : Rewrite) (e : Entry Raw) : Prop :=
  isReserved e.key = true → e.key ∉ plan.put.keys ∧ e.key ∉ plan.remove.keys

theorem decideEntry_ok {e : Entry Raw} (h : decideEntry plan d e = .ok d') :
    LeavesReserved plan e ∧ d'.actions = d.actions ++ [(e, plan.action e.key)] ∧
      d'.namesOut = (if plan.action e.key = .drop then d.namesOut else d.namesOut ++ [e.key]) ∧
      d'.seen = e.key :: d.seen := by
  simp only [decideEntry] at h
  split at h
  · cases h
  · next hreserved =>
    obtain rfl := Except.ok.inj h
    refine ⟨?_, rfl, rfl, rfl⟩
    intro hres
    rw [not_and, not_or] at hreserved
    exact hreserved hres

theorem foldlM_decideEntry (h : entries.foldlM (decideEntry plan) d = .ok d') :
    (∀ e ∈ entries, LeavesReserved plan e) ∧
      d'.actions = d.actions ++ entries.map (fun e => (e, plan.action e.key)) ∧
      d'.namesOut = d.namesOut ++ (entries.map Entry.key).filter (plan.action · ≠ .drop) ∧
      ∀ n, n ∈ d'.seen ↔ n ∈ d.seen ∨ n ∈ entries.map Entry.key := by
  induction entries generalizing d with
  | nil =>
    obtain rfl := foldlM_nil_ok.mp h
    simp
  | cons e entries ih =>
    obtain ⟨d₁, hstep, hrest⟩ := foldlM_cons_ok.mp h
    obtain ⟨hleaves, hactions, hnames, hseen⟩ := decideEntry_ok hstep
    obtain ⟨hleaves', hactions', hnames', hseen'⟩ := ih hrest
    refine ⟨?_, ?_, ?_, ?_⟩
    · intro e' he'
      rcases List.mem_cons.mp he' with rfl | he'
      · exact hleaves
      · exact hleaves' e' he'
    · rw [hactions', hactions, List.append_assoc]
      rfl
    · rw [hnames', hnames]
      by_cases hdrop : plan.action e.key = .drop <;> simp [hdrop]
    · intro n
      rw [hseen', hseen, List.map_cons, List.mem_cons, List.mem_cons]
      tauto

/-- A new name that the package may have. -/
theorem foldlM_addEntry {debug : DebugFormat} {seen : List Text}
    {puts : List (Text × Text × Source)} {added added' : List (Text × Source)}
    (h : puts.foldlM (addEntry debug seen) added = .ok added') :
    added' = added ++ (puts.filter (·.1 ∉ seen)).map (·.2) := by
  induction puts generalizing added with
  | nil =>
    obtain rfl := foldlM_nil_ok.mp h
    simp
  | cons put puts ih =>
    obtain ⟨added₁, hstep, hrest⟩ := foldlM_cons_ok.mp h
    obtain ⟨key, name, source⟩ := put
    rw [ih hrest]
    simp only [addEntry] at hstep
    split_ifs at hstep with hseen hreserved
    · obtain rfl := Except.ok.inj hstep
      simp [hseen]
    · obtain ⟨_, -, hstep⟩ := bind_eq_ok.mp hstep
      cases hstep
    · obtain ⟨_, -, hstep⟩ := bind_eq_ok.mp hstep
      obtain rfl := Except.ok.inj hstep
      simp [hseen]

/-- What the layout is of a plan that can be carried out. -/
theorem decideLayout_ok {debug : DebugFormat} {layout : Layout Raw}
    (h : decideLayout debug plan entries = .ok layout) :
    (∀ e ∈ entries, LeavesReserved plan e) ∧ (∀ n ∈ plan.put.keys, n ∉ plan.remove.keys) ∧
      layout.actions = entries.map (fun e => (e, plan.action e.key)) ∧
      layout.added = (plan.put.entries.filter (isNew entries)).map (·.2) ∧
      layout.namesOut = (entries.map Entry.key).filter (plan.action · ≠ .drop) ++
        layout.added.map (normalizeEntry ·.1) := by
  obtain ⟨d, hfold, h⟩ := bind_eq_ok.mp h
  obtain ⟨hleaves, hactions, hnames, hseen⟩ := foldlM_decideEntry hfold
  have hnew : ∀ put : Text × Text × Source, decide (put.1 ∉ d.seen) = isNew entries put := by
    intro put
    simp [isNew, hseen]
  split at h
  · cases h
  · split at h
    · cases h
    · split at h
      · cases h
      · next hclash =>
        obtain ⟨added, hadded, h⟩ := bind_eq_ok.mp h
        split_ifs at h
        obtain rfl := Except.ok.inj h
        refine ⟨hleaves, ?_, by simpa using hactions, ?_, by simpa using hnames⟩
        · simpa using hclash
        · simpa [hnew] using foldlM_addEntry hadded

theorem action_ne_drop (e : Entry Raw) : plan.action e.key ≠ .drop ↔ stays plan e = true := by
  unfold Rewrite.action
  by_cases hsignature : e.key = signature ∧ (!plan.isEmpty) = true
  · have hempty : plan.isEmpty = false := by simpa using hsignature.2
    rw [if_pos hsignature]
    simp [stays, hsignature.1, hempty]
  · rw [if_neg hsignature]
    have hkept : plan.isEmpty = true ∨ e.key ≠ signature := by
      rw [not_and_or] at hsignature
      simpa using hsignature.symm
    by_cases hremoved : e.key ∈ plan.remove.keys
    · simp [stays, hremoved]
    · have hstays : stays plan e = true := by simpa [stays, hremoved] using hkept
      rw [if_neg hremoved]
      split
      · simp [hstays]
      · split_ifs <;> simp [hstays]

end Decided

section Written

variable {L : Libraries Raw} {io : Io Raw} {plan : Rewrite} {names : List Text}

/-- The entry written for one of the input. -/
def Writes (L : Libraries Raw) (io : Io Raw) (plan : Rewrite) (names : List Text)
    (e e' : Entry Raw) : Action → Prop
  | .copy => e' = e
  | .drop => False
  | .put source => HoldsSource L io e' source
  | .nuspec => Holds L e' (utf8 (plan.nuspec.getD []))
  | .contentTypes => ∃ old new, readContentTypes L e = .ok old ∧
      completeContentTypes L.tokenizer L.debug old names = .ok new ∧ Holds L e' (utf8 new)
  | .coreProperties => ∃ nuspec, parseNuspec L (plan.nuspec.getD []) = .ok nuspec ∧
      Holds L e' (utf8 (coreProperties nuspec))

theorem Output.append_ok {out out' : Output Raw} {name : Text} {raw : Raw}
    (h : out.append io name raw = .ok out') : out'.entries = out.entries ++ [⟨name, raw⟩] := by
  obtain ⟨_, -, h⟩ := bind_eq_ok.mp h
  exact Except.ok.inj h ▸ rfl

theorem writeSource_ok {out out' : Output Raw} {name : Text} {source : Source}
    (h : writeSource L io out name source = .ok out') : ∃ e' : Entry Raw,
      out'.entries = out.entries ++ [e'] ∧ e'.name = name ∧ HoldsSource L io e' source := by
  cases source with
  | bytes content =>
    exact ⟨_, Output.append_ok h, rfl, content, rfl, L.zip.inflate_deflate content⟩
  | file path =>
    simp only [writeSource] at h
    split at h
    · cases h
    · next content hfile =>
      exact ⟨_, Output.append_ok h, rfl, content, hfile, L.zip.inflate_deflate content⟩

theorem writeAction_ok {out out' : Output Raw} {e : Entry Raw} {action : Action} {i : ℕ}
    (h : writeAction L io plan names out ((e, action), i) = .ok out') (hne : action ≠ .drop) :
    ∃ e', out'.entries = out.entries ++ [e'] ∧ e'.name = e.name ∧
      Writes L io plan names e e' action := by
  cases action with
  | drop => exact absurd rfl hne
  | copy =>
    obtain ⟨_, -, h⟩ := bind_eq_ok.mp h
    have hcopied := Output.append_ok h
    exact ⟨e, hcopied, rfl, rfl⟩
  | put source => exact writeSource_ok h
  | nuspec => exact ⟨_, Output.append_ok h, rfl, L.zip.inflate_deflate _⟩
  | contentTypes =>
    obtain ⟨_, -, h⟩ := bind_eq_ok.mp h
    obtain ⟨old, hold, h⟩ := bind_eq_ok.mp h
    obtain ⟨new, hnew, h⟩ := bind_eq_ok.mp h
    exact ⟨_, Output.append_ok h, rfl, old, new, hold, hnew, L.zip.inflate_deflate _⟩
  | coreProperties =>
    obtain ⟨nuspec, hnuspec, h⟩ := bind_eq_ok.mp h
    exact ⟨_, Output.append_ok h, rfl, nuspec, hnuspec, L.zip.inflate_deflate _⟩

/-- One pass over the input's entries. -/
theorem foldlM_writeAction {entries : List (Entry Raw)} {i : ℕ} {out out' : Output Raw}
    (h : ((entries.map fun e => (e, plan.action e.key)).zipIdx i).foldlM
      (writeAction L io plan names) out = .ok out') :
    ∃ old, out'.entries = out.entries ++ old ∧
      Forall₂ (fun e e' => e'.name = e.name ∧ Writes L io plan names e e' (plan.action e.key))
        (entries.filter (plan.action ·.key ≠ .drop)) old := by
  induction entries generalizing i out with
  | nil =>
    obtain rfl := foldlM_nil_ok.mp h
    exact ⟨[], by simp, Forall₂.nil⟩
  | cons e entries ih =>
    obtain ⟨out₁, hstep, hrest⟩ := foldlM_cons_ok.mp h
    obtain ⟨old, hold, hwritten⟩ := ih hrest
    by_cases hdrop : plan.action e.key = .drop
    · have hkept : out = out₁ := by
        simp only [hdrop, writeAction] at hstep
        exact Except.ok.inj hstep
      subst hkept
      use old, hold
      rw [List.filter_cons_of_neg (by simpa using hdrop)]
      exact hwritten
    · obtain ⟨e', he', hname, hwrites⟩ := writeAction_ok hstep hdrop
      use e' :: old
      constructor
      · rw [hold, he', List.append_assoc]
        rfl
      · rw [List.filter_cons_of_pos (by simpa using hdrop)]
        exact Forall₂.cons ⟨hname, hwrites⟩ hwritten

theorem foldlM_writeSource {puts : List (Text × Source)} {out out' : Output Raw}
    (h : puts.foldlM (fun out e => writeSource L io out e.1 e.2) out = .ok out') :
    ∃ new, out'.entries = out.entries ++ new ∧
      Forall₂ (fun put e' => e'.name = put.1 ∧ HoldsSource L io e' put.2) puts new := by
  induction puts generalizing out with
  | nil =>
    obtain rfl := foldlM_nil_ok.mp h
    exact ⟨[], by simp, Forall₂.nil⟩
  | cons put puts ih =>
    obtain ⟨out₁, hstep, hrest⟩ := foldlM_cons_ok.mp h
    obtain ⟨new, hnew, hputs⟩ := ih hrest
    obtain ⟨e', he', hentry⟩ := writeSource_ok hstep
    use e' :: new
    constructor
    · rw [hnew, he', List.append_assoc]
      rfl
    · exact Forall₂.cons hentry hputs

theorem isNuspec_contentTypes : isNuspec contentTypes = false := by decide

theorem isNuspec_of_isCore {n : Text} (h : isCore n = true) : isNuspec n = false := by
  simp only [isCore, Bool.and_eq_true, List.isPrefixOf_iff_prefix] at h
  obtain ⟨rest, rfl⟩ := h.1
  have hslash : '/' ∈ corePropertiesDir ++ rest := List.mem_append_left _ (by decide)
  simp [isNuspec, hslash]

theorem ne_contentTypes_of_isCore {n : Text} (h : isCore n = true) : n ≠ contentTypes := by
  rintro rfl
  revert h
  decide

/-- What is written for an entry is what it is to become. -/
theorem becomes_of_writes {e e' : Entry Raw} (hleaves : LeavesReserved plan e)
    (hstays : stays plan e = true) (hname : e'.name = e.name)
    (hwrites : Writes L io plan names e e' (plan.action e.key)) :
    Becomes L io plan names e e' := by
  simp only [stays, Bool.and_eq_true, decide_eq_true_eq, Bool.or_eq_true] at hstays
  have hput : isReserved e.key = true → plan.put.get? e.key = none := by
    intro hreserved
    have hmem := (hleaves hreserved).1
    rw [SortedMap.mem_keys_iff] at hmem
    simpa using hmem
  have hsignature : ¬(e.key = signature ∧ (!plan.isEmpty) = true) := by
    rintro ⟨hkey, hempty⟩
    rcases hstays.2 with h | h
    · simp [h] at hempty
    · exact h hkey
  unfold Rewrite.action at hwrites
  rw [if_neg hsignature, if_neg hstays.1] at hwrites
  constructor
  · exact hname
  · intro put hget
    simpa [hget, Writes] using hwrites
  · intro hnuspec xml hxml
    have hnone := hput (by simp [isReserved, hnuspec])
    simpa [hnone, hnuspec, hxml, Writes] using hwrites
  · intro hkey hempty
    have hnone := hput (by simp [isReserved, hkey])
    rw [hkey] at hnone
    simpa [hnone, hkey, hempty, isNuspec_contentTypes, Writes] using hwrites
  · intro hcore xml hxml
    have hnone := hput (by simp [isReserved, hcore])
    simpa [hnone, hcore, hxml, isNuspec_of_isCore hcore, ne_contentTypes_of_isCore hcore, Writes]
      using hwrites
  · intro hnone hnuspec htypes hcore
    have h₁ : ¬(isNuspec e.key = true ∧ plan.nuspec.isSome = true) := by
      rintro ⟨h, hsome⟩
      simp [hnuspec h] at hsome
    have h₂ : ¬(e.key = contentTypes ∧ (!plan.isEmpty) = true) := by
      rintro ⟨h, hempty⟩
      simp [htypes h] at hempty
    have h₃ : ¬(isCore e.key = true ∧ plan.nuspec.isSome = true) := by
      rintro ⟨h, hsome⟩
      simp [hcore h] at hsome
    simpa only [hnone, if_neg h₁, if_neg h₂, if_neg h₃, Writes] using hwrites

end Written

section Rewritten

variable {L : Libraries Raw} {io : Io Raw} {plan : Rewrite} {entries out : List (Entry Raw)}

/-- The output is the entries that stay, as they are to become, and the new ones. -/
structure Written (L : Libraries Raw) (io : Io Raw) (plan : Rewrite)
    (entries out old new : List (Entry Raw)) : Prop where
  clash : ∀ n ∈ plan.put.keys, n ∉ plan.remove.keys
  out_eq : out = old ++ new
  stayed : Forall₂ (Becomes L io plan (out.map Entry.key)) (entries.filter (stays plan)) old
  added : Forall₂ (fun put e' => e'.name = put.2.1 ∧ HoldsSource L io e' put.2.2)
    (plan.put.entries.filter (isNew entries)) new

theorem map_eq_map {α β γ : Type} {R : α → β → Prop} {f : β → γ} {g : α → γ} {as : List α}
    {bs : List β} (h : Forall₂ R as bs) (hR : ∀ a b, R a b → f b = g a) :
    bs.map f = as.map g := by
  induction h with
  | nil => rfl
  | cons hab _ ih => rw [List.map_cons, List.map_cons, ih, hR _ _ hab]

theorem exists_right_of_forall₂ {α β : Type} {R : α → β → Prop} {as : List α} {bs : List β}
    (h : Forall₂ R as bs) {a : α} (ha : a ∈ as) : ∃ b ∈ bs, R a b := by
  induction h with
  | nil => cases ha
  | cons hab _ ih =>
    rcases List.mem_cons.mp ha with rfl | ha
    · exact ⟨_, List.mem_cons_self, hab⟩
    · obtain ⟨b, hb, hR⟩ := ih ha
      exact ⟨b, List.mem_cons_of_mem _ hb, hR⟩

theorem keys_added {new : List (Entry Raw)}
    (h : Forall₂ (fun put e' => e'.name = put.2.1 ∧ HoldsSource L io e' put.2.2)
      (plan.put.entries.filter (isNew entries)) new) :
    new.map Entry.key = (plan.put.entries.filter (isNew entries)).map (·.1) := by
  have hkeyed : ∀ put ∈ plan.put.entries.filter (isNew entries), put.1 = normalizeEntry put.2.1 :=
    fun put hput => plan.keyed put (List.mem_of_mem_filter hput)
  refine map_eq_map ((forall₂_and_left _ _).mpr ⟨hkeyed, h⟩) ?_
  rintro put e' ⟨hkey, hname, -⟩
  rw [Entry.key, hname, hkey]

theorem rewriteInto_ok {package : Package Raw} {done : Rewritten}
    (h : rewriteInto L io plan (.ok package) = .ok (done, out)) :
    ∃ old new, Written L io plan package.entries out old new := by
  obtain ⟨_, hpackage, h⟩ := bind_eq_ok.mp h
  obtain rfl := Except.ok.inj hpackage
  obtain ⟨_, -, h⟩ := bind_eq_ok.mp h
  obtain ⟨layout, hlayout, h⟩ := bind_eq_ok.mp h
  obtain ⟨_, -, h⟩ := bind_eq_ok.mp h
  obtain ⟨out₁, hold, h⟩ := bind_eq_ok.mp h
  obtain ⟨out₂, hnew, h⟩ := bind_eq_ok.mp h
  obtain ⟨_, -, h⟩ := bind_eq_ok.mp h
  obtain ⟨_, -, h⟩ := bind_eq_ok.mp h
  obtain ⟨_, -, h⟩ := bind_eq_ok.mp h
  obtain ⟨-, rfl⟩ := Prod.mk.inj (Except.ok.inj h)
  obtain ⟨hleaves, hclash, hactions, hadded, hnames⟩ := decideLayout_ok hlayout
  rw [hactions] at hold
  obtain ⟨old, hold, hwritten⟩ := foldlM_writeAction hold
  obtain ⟨new, hnew, hputs⟩ := foldlM_writeSource hnew
  have hout : out₂.entries = old ++ new := by simpa [hold] using hnew
  have hfilter : package.entries.filter (plan.action ·.key ≠ .drop) =
      package.entries.filter (stays plan) := by
    apply List.filter_congr
    intro e _
    rw [Bool.eq_iff_iff, decide_eq_true_iff]
    exact action_ne_drop e
  rw [hfilter] at hwritten
  have hnewputs : Forall₂ (fun put e' => e'.name = put.2.1 ∧ HoldsSource L io e' put.2.2)
      (plan.put.entries.filter (isNew package.entries)) new := by
    rw [hadded, List.forall₂_map_left_iff] at hputs
    exact hputs
  have hkeys : out₂.entries.map Entry.key = layout.namesOut := by
    have hkeysold : old.map Entry.key = (package.entries.filter (stays plan)).map Entry.key :=
      map_eq_map hwritten fun e e' h => Entry.key_eq h.1
    have hnamed : layout.added.map (normalizeEntry ·.1) = new.map Entry.key := by
      rw [hadded, keys_added hnewputs, List.map_map]
      apply List.map_congr_left
      intro put hput
      exact (plan.keyed put (List.mem_of_mem_filter hput)).symm
    rw [hout, List.map_append, hkeysold, hnames, hnamed, List.filter_map, ← hfilter]
    rfl
  refine ⟨old, new, hclash, hout, ?_, hnewputs⟩
  rw [hkeys]
  have hmem : ∀ e ∈ package.entries.filter (stays plan),
      LeavesReserved plan e ∧ stays plan e = true :=
    fun e he => ⟨hleaves e (List.mem_of_mem_filter he), List.of_mem_filter he⟩
  refine ((forall₂_and_left _ _).mpr ⟨hmem, hwritten⟩).imp ?_
  rintro e e' ⟨⟨hleave, hstay⟩, hname, hwrites⟩
  exact becomes_of_writes hleave hstay hname hwrites

theorem Written.keys_out {old new : List (Entry Raw)} (h : Written L io plan entries out old new) :
    out.map Entry.key = (entries.filter (stays plan)).map Entry.key ++
      (plan.put.entries.filter (isNew entries)).map (·.1) := by
  rw [h.out_eq, List.map_append, keys_added h.added,
    map_eq_map h.stayed fun e e' hbecomes => Entry.key_eq hbecomes.name]

theorem nodup_iff_filter {α : Type} {l : List α} (p : α → Bool) :
    l.Nodup ↔ (l.filter p).Nodup ∧ (l.filter fun a => !p a).Nodup := by
  constructor
  · intro h
    exact ⟨h.filter _, h.filter _⟩
  · rintro ⟨hp, hn⟩
    have hperm : (l.filter p ++ l.filter fun a => !p a).Perm l := List.filter_append_perm p l
    rw [← hperm.nodup_iff, List.nodup_append]
    refine ⟨hp, hn, ?_⟩
    rintro a ha b hb rfl
    have hpos := List.of_mem_filter ha
    have hneg := List.of_mem_filter hb
    simp [hpos] at hneg

/-- The new names are neither each other's nor the input's. -/
theorem Written.distinct_iff {package : Package Raw} {old new : List (Entry Raw)}
    (h : Written L io plan package.entries out old new) :
    (out.map Entry.key).Nodup ↔ DirectoriesDistinct plan package.entries := by
  have hfiles : (((package.entries.filter (stays plan)).map Entry.key).filter isFileName).Nodup := by
    have hsub : ((package.entries.filter (stays plan)).map Entry.key).Sublist
        (package.entries.map Entry.key) := List.filter_sublist.map _
    exact package.distinct.sublist (hsub.filter _)
  have hnew : ((plan.put.entries.filter (isNew package.entries)).map (·.1)).Nodup :=
    SortedMap.nodup_keys.sublist (List.filter_sublist.map _)
  have hapart : ∀ n ∈ (package.entries.filter (stays plan)).map Entry.key,
      ∀ n' ∈ (plan.put.entries.filter (isNew package.entries)).map (·.1), n ≠ n' := by
    rintro n hn n' hn' rfl
    obtain ⟨e, he, rfl⟩ := List.mem_map.mp hn
    obtain ⟨put, hput, hkey⟩ := List.mem_map.mp hn'
    have habsent := List.of_mem_filter hput
    simp only [isNew, decide_eq_true_eq] at habsent
    exact habsent (hkey ▸ List.mem_map_of_mem (List.mem_of_mem_filter he))
  rw [h.keys_out, List.nodup_append]
  constructor
  · rintro ⟨hold, -, -⟩
    exact ((nodup_iff_filter isFileName).mp hold).2
  · intro hdirs
    exact ⟨(nodup_iff_filter isFileName).mpr ⟨hfiles, hdirs⟩, hnew, hapart⟩

theorem Written.puts_iff {old new : List (Entry Raw)} (h : Written L io plan entries out old new) :
    (∀ put ∈ plan.put.entries, ∃ e' ∈ out, e'.key = put.1 ∧ HoldsSource L io e' put.2.2) ↔
      ¬PutsSignature plan entries := by
  constructor
  · rintro hputs ⟨hput, hsignature⟩
    obtain ⟨put, hput⟩ := SortedMap.mem_keys.mp hput
    obtain ⟨e', he', hkey, -⟩ := hputs _ hput
    have hempty : plan.isEmpty = false := by
      have hne : plan.put.entries ≠ [] := List.ne_nil_of_mem hput
      simp [Rewrite.isEmpty, hne]
    have hmem : e'.key ∈ out.map Entry.key := List.mem_map_of_mem he'
    rw [h.keys_out, hkey, List.mem_append] at hmem
    rcases hmem with hmem | hmem
    · obtain ⟨e, he, hsame⟩ := List.mem_map.mp hmem
      have hstays := List.of_mem_filter he
      simp [stays, hsame, hempty] at hstays
    · obtain ⟨new, hnew, hsame⟩ := List.mem_map.mp hmem
      have habsent := List.of_mem_filter hnew
      simp only [isNew, decide_eq_true_eq] at habsent
      exact habsent (hsame ▸ hsignature)
  · intro hno put hput
    by_cases hnew : isNew entries put = true
    · obtain ⟨e', he', hname, hholds⟩ :=
        exists_right_of_forall₂ h.added (List.mem_filter.mpr ⟨hput, hnew⟩)
      refine ⟨e', ?_, ?_, hholds⟩
      · rw [h.out_eq]
        exact List.mem_append_right _ he'
      · rw [Entry.key, hname, plan.keyed put hput]
    · have hmem : put.1 ∈ entries.map Entry.key := by simpa [isNew] using hnew
      obtain ⟨e, he, hkey⟩ := List.mem_map.mp hmem
      have hputkey : e.key ∈ plan.put.keys := hkey ▸ SortedMap.mem_keys.mpr ⟨_, hput⟩
      have hstays : stays plan e = true := by
        have hother : e.key ≠ signature := fun hsignature =>
          hno ⟨hsignature ▸ hputkey, hsignature ▸ List.mem_map_of_mem he⟩
        simp [stays, h.clash _ hputkey, hother]
      obtain ⟨e', he', hbecomes⟩ :=
        exists_right_of_forall₂ h.stayed (List.mem_filter.mpr ⟨he, hstays⟩)
      refine ⟨e', ?_, ?_, ?_⟩
      · rw [h.out_eq]
        exact List.mem_append_left _ he'
      · exact (Entry.key_eq hbecomes.name).trans hkey
      · apply hbecomes.put put.2
        rw [hkey]
        exact SortedMap.get?_eq_some.mpr hput

theorem Written.asPlanned_iff {package : Package Raw} {old new : List (Entry Raw)}
    (h : Written L io plan package.entries out old new) :
    AsPlanned L io plan package.entries out ↔
      ¬PutsSignature plan package.entries ∧ DirectoriesDistinct plan package.entries := by
  constructor
  · intro hplanned
    exact ⟨h.puts_iff.mp hplanned.puts, h.distinct_iff.mp hplanned.distinct⟩
  · rintro ⟨hputs, hdirs⟩
    exact ⟨⟨old, new, h.out_eq, h.stayed, h.added⟩, h.puts_iff.mpr hputs, h.distinct_iff.mpr hdirs⟩

end Rewritten

/-- A rewrite that fails leaves no output. One that succeeds changes what was planned and nothing
else, exactly if the plan does not put the signature of the package, and the names of the
directory entries that stay are distinct. -/
theorem rewrite_as_planned_iff (L : Libraries Raw) (io : Io Raw) (plan : Rewrite)
    (package : Package Raw) :
    (∀ e, (rewriteBlocking L io plan (.ok package)).result = .error e →
      (rewriteBlocking L io plan (.ok package)).output = none) ∧
    ∀ done, (rewriteBlocking L io plan (.ok package)).result = .ok done →
      ∃ out, (rewriteBlocking L io plan (.ok package)).output = some out ∧
        (AsPlanned L io plan package.entries out ↔
          ¬PutsSignature plan package.entries ∧ DirectoriesDistinct plan package.entries) := by
  unfold rewriteBlocking
  cases hresult : rewriteInto L io plan (.ok package) with
  | error e => exact ⟨fun _ _ => rfl, nofun⟩
  | ok written =>
    obtain ⟨done, out⟩ := written
    obtain ⟨old, new, hwritten⟩ := rewriteInto_ok hresult
    exact ⟨nofun, fun _ _ => ⟨out, rfl, hwritten.asPlanned_iff⟩⟩

/-- Reads a text that is one empty element without attributes, and takes any other text for one
piece of text. -/
def wholeTokenizer : Tokenizer where
  next t :=
    match t with
    | [] => .ok none
    | c :: rest =>
      if c = '<' ∧ ['/', '>'].isSuffixOf rest then
        .ok (some (⟨.empty ⟨rest.take (rest.length - 2), []⟩, c :: rest⟩, []))
      else .ok (some (⟨.leaf (.text t), t⟩, []))
  mismatched _ _ := ""
  at_end {t} := by
    cases t with
    | nil => simp
    | cons c rest =>
      dsimp only
      split_ifs <;> simp
  tiles {t p rest} h := by
    cases t with
    | nil => cases h
    | cons c inside =>
      dsimp only at h
      split_ifs at h <;> cases h <;> simp
  empty_source {t p rest tag} h hevent := by
    cases t with
    | nil => cases h
    | cons c inside =>
      dsimp only at h
      split_ifs at h with htag
      · cases h
        obtain ⟨rfl, hsuffix⟩ := htag
        obtain ⟨name, rfl⟩ := List.isSuffixOf_iff_suffix.mp hsuffix
        exact ⟨name, rfl⟩
      · cases h
        cases hevent

/-- An archive whose data is not compressed. -/
def storedZip : ZipLibrary (List UInt8) where
  size := List.length
  compressedSize := List.length
  crc32 _ := 0
  inflate := .ok
  deflate := id
  inflate_deflate _ := rfl
  notFound := ""

def sampleLibraries : Libraries (List UInt8) where
  zip := storedZip
  parseXml _ := ⟨0, [], none, rfl⟩
  tokenizer := wholeTokenizer
  debug := ⟨String.ofList, fun c => String.ofList [c]⟩

/-- Nothing goes wrong. -/
def sampleIo : Io (List UInt8) where
  files _ := .error ""
  create := none
  openEntry _ := none
  write _ := none
  finish := none
  reopen := .ok
  sync := none

def signedPackage : Package (List UInt8) where
  entries := [⟨"a.nuspec".toList, []⟩, ⟨"[Content_Types].xml".toList, utf8 "<Types/>".toList⟩,
    ⟨signature, [1]⟩]
  distinct := by decide +kernel

/-- A plan that puts a signature. The rewrite succeeds, and its output has none. -/
theorem put_signature_is_lost :
    ∃ done out, rewriteBlocking sampleLibraries sampleIo
        (Rewrite.new.withPut signature (.bytes [2])) (.ok signedPackage) = ⟨.ok done, some out⟩ ∧
      ¬AsPlanned sampleLibraries sampleIo (Rewrite.new.withPut signature (.bytes [2]))
        signedPackage.entries out := by
  let plan := Rewrite.new.withPut signature (.bytes [2])
  have hruns : (rewriteInto sampleLibraries sampleIo plan (.ok signedPackage)).isOk = true := by
    decide +kernel
  have hsignature : PutsSignature plan signedPackage.entries := by
    constructor <;> decide +kernel
  cases hresult : rewriteInto sampleLibraries sampleIo plan (.ok signedPackage) with
  | error e =>
    rw [hresult] at hruns
    cases hruns
  | ok written =>
    obtain ⟨done, out⟩ := written
    obtain ⟨old, new, hwritten⟩ := rewriteInto_ok hresult
    refine ⟨done, out, ?_, fun hplanned => hwritten.puts_iff.mp hplanned.puts hsignature⟩
    rw [rewriteBlocking, hresult]

end YaNuget.Rewriting
