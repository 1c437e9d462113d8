import Mathlib.Data.List.Find
import YaNuget.Data.Outcomes
import YaNuget.Internalize.Assess

/-!
# The files an internalized package uses

The prelude maps a URL to the file that was downloaded for it last, and a name
stands for the file that was given it first. So what is mapped has the declared
checksums exactly when these are the same file, and it has them.
-/
namespace YaNuget.Internalize

open Outcomes

/-- One run for a package, with all that it meets. -/
structure Run where
  id : Text
  version : Text
  capture : Except String Capture
  timeoutSecs : ℕ
  override : Option Override
  root : Bool
  allowed : List Text
  maxBytes : ℕ
  /-- What each download meets. -/
  answers : ℕ → Answer

/-- A downloaded file, with the name it was given. -/
structure Given where
  wanted : Wanted
  file : Downloaded
  name : Text

def givenNames (T : Tools) (allowed : List Text) (id version : Text) :
    Names → List (Wanted × Except String Downloaded) → Option (List Given)
  | _, [] => some []
  | _, (_, .error _) :: _ => none
  | names, (w, .ok file) :: rest =>
    match names.name T.pathSegments (sourceOf { id := id, version := version } w file) allowed with
    | (.error _, _) => none
    | (.ok name, names) =>
      (givenNames T allowed id version names rest).map (⟨w, file, name⟩ :: ·)

namespace Run

variable (T : Tools) (run : Run)

def assessed : Draft × List Wanted :=
  assess run.capture run.timeoutSecs run.override run.root { id := run.id, version := run.version }

def results : List (Wanted × Except String Downloaded) :=
  fetchWanted T run.maxBytes run.answers run.assessed.2

def recorded : Recording := recordAll T run.allowed run.assessed.1 (run.results T)

/-- The calls of the package that were captured. -/
def calls : List Call :=
  match run.capture with
  | .ok raw => raw.calls.toOption.getD []
  | .error _ => []

/-- The files with their names, in the order they were asked for. -/
def given : List Given :=
  (givenNames T run.allowed run.id run.version [] (run.results T)).getD []

/-- A URL of a captured call, with the checksum that is declared for it. -/
def Captured (url : Url) (checksum : Option Checksum) : Prop :=
  ∃ call ∈ run.calls, (some url, checksum) ∈ call.downloads

def lastFor (url : Url) : Option Given := (run.given T).reverse.find? (·.wanted.url = url)

def firstNamed (name : Text) : Option Given := (run.given T).find? (·.name = name)

/-- The prelude maps the URL to an attached file, which has the checksum. -/
def Maps (map : FileMap) (url : Url) (checksum : Option Checksum) : Prop :=
  ∃ a ∈ (run.recorded T).attachments, ∃ dir, filesDir run.id run.version = .ok dir ∧
    map.lookup (urlKey T url) = some (dir ++ a.name, a.sha256) ∧
      ∀ sum ∈ checksum, checksumOf T sum.kind a.file = sum.hex

/-- SHA-256 tells the URLs and the files apart. -/
structure NoCollision : Prop where
  urls : ∀ w ∈ run.assessed.2, ∀ w' ∈ run.assessed.2, urlKey T w.url = urlKey T w'.url →
    w.url = w'.url
  files : ∀ g ∈ run.given T, ∀ g' ∈ run.given T, T.sha256 g.file.file = T.sha256 g'.file.file →
    g.file.file = g'.file.file

end Run

section Drafts

variable {d : Draft} {why : String} {entry : Download}

theorem pushOnce_ne_nil (list : List String) (item : String) : pushOnce list item ≠ [] := by
  unfold pushOnce
  split
  next h => exact List.ne_nil_of_mem h
  · simp

/-- Nothing stands against the package. -/
def Draft.Clean (d : Draft) : Prop := d.failures = [] ∧ d.overrides = []

theorem Draft.status_eq_internalized : d.status = .internalized ↔ d.Clean ∧ d.downloads ≠ [] := by
  unfold Draft.status Draft.Clean
  cases d.failures <;> cases d.overrides <;> cases d.downloads <;> simp

@[simp]
theorem Draft.fail_clean : ¬(d.fail why).Clean := fun h => pushOnce_ne_nil _ _ h.1

@[simp]
theorem Draft.needsOverride_clean : ¬(d.needsOverride why).Clean := fun h => pushOnce_ne_nil _ _ h.2

@[simp]
theorem Draft.warn_clean : (d.warn why).Clean ↔ d.Clean := Iff.rfl

@[simp]
theorem Draft.noteOverridden_clean : (d.noteOverridden why).Clean ↔ d.Clean := Iff.rfl

@[simp]
theorem Draft.download_clean : (d.download entry).Clean ↔ d.Clean := Iff.rfl

end Drafts

section Wants

variable {state : Draft × List Wanted} {call : Call} {url : Url} {checksum : Option Checksum}

def Wants (wanted : List Wanted) (url : Url) (checksum : Option Checksum) : Prop :=
  ∃ w ∈ wanted, w.url = url ∧ w.checksum = checksum

theorem addWanted_wants {wanted : List Wanted} {w : Wanted} :
    Wants (addWanted wanted w) url checksum ↔
      Wants wanted url checksum ∨ w.url = url ∧ w.checksum = checksum := by
  unfold addWanted
  split
  next h =>
    simp only [List.any_eq_true, decide_eq_true_eq] at h
    obtain ⟨x, hx, hurl, hchecksum⟩ := h
    constructor
    · exact Or.inl
    · rintro (h | ⟨rfl, rfl⟩)
      · exact h
      · exact ⟨x, hx, hurl, hchecksum⟩
  · simp [Wants, or_and_right, exists_or]

theorem foldl_addUrl_wants (downloads : List (Option Url × Option Checksum))
    (wanted : List Wanted) : Wants (downloads.foldl (addUrl call) wanted) url checksum ↔
      Wants wanted url checksum ∨ (some url, checksum) ∈ downloads := by
  induction downloads generalizing wanted with
  | nil => simp
  | cons d rest ih =>
    obtain ⟨u, c⟩ := d
    rw [List.foldl_cons, ih]
    cases u with
    | none => simp [addUrl]
    | some u =>
      rw [addUrl, addWanted_wants, or_assoc]
      simp [eq_comm]

theorem addCall_wants : Wants (addCall state call).2 url checksum ↔
    Wants state.2 url checksum ∨ (some url, checksum) ∈ call.downloads := by
  unfold addCall
  split
  next h =>
    simp only [List.all_eq_true, Option.isNone_iff_eq_none] at h
    constructor
    · exact Or.inl
    · rintro (hwants | hmem)
      · exact hwants
      · simpa using h _ hmem
  · exact foldl_addUrl_wants call.downloads state.2

theorem foldl_addCall_wants (calls : List Call) :
    Wants (calls.foldl addCall state).2 url checksum ↔
      Wants state.2 url checksum ∨ ∃ call ∈ calls, (some url, checksum) ∈ call.downloads := by
  induction calls generalizing state with
  | nil => simp
  | cons call rest ih =>
    rw [List.foldl_cons, ih, addCall_wants, or_assoc]
    simp

theorem applyRewrite_wants (h : Wants state.2 url checksum) (rewrite : Url × Url) :
    Wants (applyRewrite state rewrite).2 url checksum := by
  obtain ⟨w, hw, hurl, hchecksum⟩ := h
  refine ⟨_, List.mem_map_of_mem hw, ?_, ?_⟩ <;> split <;> assumption

theorem applyDownload_wants (h : Wants state.2 url checksum) (extra : ExtraDownload) :
    Wants (applyDownload state extra).2 url checksum := by
  obtain ⟨w, hw, hw'⟩ := h
  unfold applyDownload
  simp only
  split
  · exact ⟨w, hw, hw'⟩
  · exact ⟨w, List.mem_append_left _ hw, hw'⟩

theorem apply_wants (o : Override) (root : Bool) (h : Wants state.2 url checksum) :
    Wants (o.apply root state).2 url checksum := by
  have fold {α : Type} (f : Draft × List Wanted → α → Draft × List Wanted)
      (step : ∀ state a, Wants state.2 url checksum → Wants (f state a).2 url checksum)
      (as : List α) (state : Draft × List Wanted) (h : Wants state.2 url checksum) :
      Wants (as.foldl f state).2 url checksum := by
    induction as generalizing state with
    | nil => exact h
    | cons a rest ih => exact ih _ (step state a h)
  unfold Override.apply
  apply fold _ fun _ extra h => applyDownload_wants h extra
  exact fold _ (fun _ rewrite h => applyRewrite_wants h rewrite) _ _ h

theorem Run.Captured.wants {run : Run} (h : run.Captured url checksum) :
    Wants run.assessed.2 url checksum := by
  obtain ⟨call, hcall, hmem⟩ := h
  unfold Run.calls at hcall
  unfold Run.assessed assess
  cases hcapture : run.capture with
  | error err => simp [hcapture] at hcall
  | ok raw =>
    cases hcalls : raw.calls with
    | error reasons => simp [hcapture, hcalls, Except.toOption] at hcall
    | ok calls =>
      simp only [hcapture, hcalls, Except.toOption, Option.getD_some] at hcall
      simp only [hcalls]
      have hwants (draft : Draft) : Wants (calls.foldl addCall (draft, [])).2 url checksum :=
        (foldl_addCall_wants calls).mpr (Or.inr ⟨call, hcall, hmem⟩)
      cases run.override with
      | none => exact hwants _
      | some o => exact apply_wants o run.root (hwants _)

end Wants

def Given.entry (g : Given) : Download := downloadEntry g.wanted g.file (some g.name)

def Given.attachment (g : Given) : Attachment := Internalize.attachment g.name g.file

section Recording

variable {T : Tools} {allowed : List Text} {id version : Text} {r : Recording} {w : Wanted}
  {got : Except String Downloaded} {results : List (Wanted × Except String Downloaded)}

/-- What is recorded without an objection is downloaded and named. -/
theorem record_clean (h : (record T allowed r w got).draft.Clean) :
    ∃ g : Given, g.wanted = w ∧ got = .ok g.file ∧ r.draft.Clean ∧
      (∃ names, r.names.name T.pathSegments (sourceOf r.draft w g.file) allowed =
        (.ok g.name, names) ∧ (record T allowed r w got).names = names) ∧
      (record T allowed r w got).draft.downloads = r.draft.downloads ++ [g.entry] ∧
      (record T allowed r w got).attachments = attach r.attachments g.attachment ∧
      (record T allowed r w got).draft.id = r.draft.id ∧
      (record T allowed r w got).draft.version = r.draft.version := by
  cases got with
  | error err => exact (Draft.fail_clean h).elim
  | ok file =>
    simp only [record] at h ⊢
    split at h
    next name names hname =>
      refine ⟨⟨w, file, name⟩, rfl, rfl, ?_, ⟨names, hname, rfl⟩, ?_, rfl, ?_⟩
      all_goals split_ifs at h ⊢ with hplain
      · exact h
      · exact h
      · rfl
      · rfl
      · exact ⟨rfl, rfl⟩
      · exact ⟨rfl, rfl⟩
    · exact (Draft.needsOverride_clean (Draft.download_clean.mp h)).elim

theorem recordAll_clean (hid : r.draft.id = id) (hversion : r.draft.version = version)
    (h : (results.foldl (fun r (w, got) => record T allowed r w got) r).draft.Clean) :
    r.draft.Clean ∧ ∃ gs, givenNames T allowed id version r.names results = some gs ∧
      gs.map (·.wanted) = results.map Prod.fst ∧
      (∀ g ∈ gs, (g.wanted, .ok g.file) ∈ results) ∧
      (results.foldl (fun r (w, got) => record T allowed r w got) r).draft.downloads =
        r.draft.downloads ++ gs.map Given.entry ∧
      (results.foldl (fun r (w, got) => record T allowed r w got) r).attachments =
        (gs.map Given.attachment).foldl attach r.attachments := by
  induction results generalizing r with
  | nil => exact ⟨h, [], rfl, rfl, by simp, by simp, rfl⟩
  | cons result rest ih =>
    obtain ⟨w, got⟩ := result
    simp only [List.foldl_cons] at h ⊢
    generalize hr' : record T allowed r w got = r' at h ⊢
    have hfirst (hclean : r'.draft.Clean) := record_clean (hr' ▸ hclean)
    rw [hr'] at hfirst
    have hids : r'.draft.id = r.draft.id ∧ r'.draft.version = r.draft.version := by
      rw [← hr']
      unfold record
      cases got with
      | error err => exact ⟨rfl, rfl⟩
      | ok file =>
        simp only
        split <;> split_ifs <;> exact ⟨rfl, rfl⟩
    obtain ⟨hclean', gs, hgs, hwanted, hmem, hdownloads, hattachments⟩ :=
      ih (hids.1.trans hid) (hids.2.trans hversion) h
    obtain ⟨g, rfl, rfl, hclean, ⟨names, hname, hnames⟩, hentry, hattach, -⟩ := hfirst hclean'
    refine ⟨hclean, g :: gs, ?_, ?_, ?_, ?_, ?_⟩
    · have hsource : sourceOf { id := id, version := version } g.wanted g.file =
          sourceOf r.draft g.wanted g.file := by
        rw [sourceOf, sourceOf, hid, hversion]
      rw [givenNames, hsource, hname]
      simp only
      rw [← hnames, hgs]
      rfl
    · simp [hwanted]
    · intro g' hg'
      rcases List.mem_cons.mp hg' with rfl | hg'
      · exact List.mem_cons_self
      · exact List.mem_cons_of_mem _ (hmem g' hg')
    · rw [hdownloads, hentry, List.append_assoc]
      rfl
    · rw [hattachments, hattach]
      rfl

end Recording

section Attachments

variable {as bs : List Attachment} {a : Attachment} {name : Text}

theorem find?_attach : (attach as a).find? (·.name = name) =
    (as.find? (·.name = name)).or (if a.name = name then some a else none) := by
  unfold attach
  split
  next h =>
    by_cases hname : a.name = name
    · subst hname
      rw [if_pos rfl, Option.or_of_isSome]
      rw [List.find?_isSome]
      simpa using h
    · rw [if_neg hname, Option.or_none]
  · rw [List.find?_append]
    by_cases hname : a.name = name <;> simp [hname]

theorem find?_foldl_attach (bs : List Attachment) : (bs.foldl attach as).find? (·.name = name) =
    (as.find? (·.name = name)).or (bs.find? (·.name = name)) := by
  induction bs generalizing as with
  | nil => simp
  | cons b bs ih =>
    rw [List.foldl_cons, ih, find?_attach, Option.or_assoc, List.find?_cons]
    by_cases hname : b.name = name <;> simp [hname]

theorem find?_of_mem_attach (h : ∀ b ∈ as, as.find? (·.name = b.name) = some b) :
    ∀ b ∈ attach as a, (attach as a).find? (·.name = b.name) = some b := by
  intro b hb
  rw [find?_attach]
  unfold attach at hb
  split at hb
  · rw [h b hb, Option.some_or]
  next hnew =>
    rcases List.mem_append.mp hb with hb | hb
    · rw [h b hb, Option.some_or]
    · obtain rfl := List.mem_singleton.mp hb
      have hnone : as.find? (·.name = b.name) = none := by
        rw [List.find?_eq_none]
        simpa using hnew
      rw [hnone, if_pos rfl, Option.none_or]

theorem find?_of_mem_foldl_attach (h : ∀ b ∈ as, as.find? (·.name = b.name) = some b) :
    ∀ b ∈ bs.foldl attach as, (bs.foldl attach as).find? (·.name = b.name) = some b := by
  induction bs generalizing as with
  | nil => exact h
  | cons b bs ih => exact ih (find?_of_mem_attach h)

theorem find?_attached (bs : List Attachment) (name : Text) :
    (bs.foldl attach []).find? (·.name = name) = bs.find? (·.name = name) := by
  rw [find?_foldl_attach, List.find?_nil, Option.none_or]

theorem find?_of_mem_attached (ha : a ∈ bs.foldl attach []) :
    (bs.foldl attach []).find? (·.name = a.name) = some a := by
  have hnone : ∀ b ∈ ([] : List Attachment), [].find? (·.name = b.name) = some b := by simp
  exact find?_of_mem_foldl_attach hnone a ha

end Attachments

section FileMaps

variable {T : Tools} {map map' : FileMap} {key key' : Text} {value : Text × Text} {dir : Text}

theorem FileMap.lookup_insert : (map.insert key value).lookup key' =
    if key' = key then some value else map.lookup key' := by
  unfold FileMap.insert
  rw [List.lookup_cons]
  by_cases hkey : key' = key
  · simp [hkey]
  · have hother : (map.filter (·.1 ≠ key)).lookup key' = map.lookup key' := by
      induction map with
      | nil => rfl
      | cons e rest ih =>
        obtain ⟨k, v⟩ := e
        by_cases hk : k = key
        · have hne : (key' == k) = false := by simpa [hk] using hkey
          rw [List.filter_cons_of_neg (by simpa using hk), ih, List.lookup_cons, hne]
        · rw [List.filter_cons_of_pos (by simpa using hk), List.lookup_cons, List.lookup_cons, ih]
    have hne : (key' == key) = false := by simpa using hkey
    rw [hne, hother, if_neg hkey]

def Given.mapped (g : Given) (dir : Text) : Text × Text := (dir ++ g.name, Text.lower g.file.sha256)

theorem mapDownload_entry {g : Given} (h : mapDownload T dir map g.entry = .ok map') :
    map' = map.insert (urlKey T g.wanted.url) (g.mapped dir) := by
  simp only [mapDownload, Given.entry, downloadEntry] at h
  split_ifs at h
  exact (Except.ok.inj h).symm

theorem lookup_of_mapDownloads {gs : List Given}
    (h : (gs.map Given.entry).foldlM (mapDownload T dir) map = .ok map') :
    map'.lookup key = ((gs.reverse.find? (urlKey T ·.wanted.url = key)).map (·.mapped dir)).or
      (map.lookup key) := by
  induction gs generalizing map with
  | nil =>
    obtain rfl := foldlM_nil_ok.mp h
    rfl
  | cons g rest ih =>
    rw [List.map_cons, foldlM_cons_ok] at h
    obtain ⟨map₁, hfirst, hrest⟩ := h
    rw [ih hrest, mapDownload_entry hfirst, FileMap.lookup_insert, List.reverse_cons,
      List.find?_append]
    cases hfind : rest.reverse.find? (urlKey T ·.wanted.url = key) with
    | some g' => simp
    | none =>
      by_cases hkey : urlKey T g.wanted.url = key
      · simp [hkey]
      · simp [hkey, Ne.symm hkey]

theorem of_render {id version : Text} {gs : List Given} {prelude : Option FileMap} (hne : gs ≠ [])
    (h : render T id version (gs.map Given.entry) = .ok prelude) :
    ∃ dir map, filesDir id version = .ok dir ∧ prelude = some map ∧ ∀ key, map.lookup key =
      (gs.reverse.find? (urlKey T ·.wanted.url = key)).map (·.mapped dir) := by
  unfold render at h
  rw [bind_eq_ok] at h
  obtain ⟨dir, hdir, h⟩ := h
  rw [bind_eq_ok] at h
  obtain ⟨map, hmap, h⟩ := h
  have hlookup (key : Text) : map.lookup key =
      (gs.reverse.find? (urlKey T ·.wanted.url = key)).map (·.mapped dir) := by
    rw [lookup_of_mapDownloads hmap]
    simp
  refine ⟨dir, map, hdir, ?_, hlookup⟩
  have hfull : map.isEmpty = false := by
    obtain ⟨g, hg⟩ := List.exists_mem_of_ne_nil gs hne
    have hsome : (gs.reverse.find? (urlKey T ·.wanted.url = urlKey T g.wanted.url)).isSome := by
      rw [List.find?_isSome]
      exact ⟨g, by simpa using hg, by simp⟩
    have hkey := hlookup (urlKey T g.wanted.url)
    cases map with
    | nil =>
      rw [List.lookup_nil, eq_comm, Option.map_eq_none_iff] at hkey
      simp [hkey] at hsome
    | cons e rest => rfl
  rw [hfull] at h
  exact (Except.ok.inj h).symm

end FileMaps

section Digests

variable {T : Tools}

theorem lower_hex (bytes : Bytes) : Text.lower (hex bytes) = hex bytes := by
  have digit : ∀ m < 16, (Nat.digitChar m).toLower = Nat.digitChar m := by decide
  induction bytes with
  | nil => rfl
  | cons b rest ih =>
    have hb := b.toNat_lt
    have hhigh := digit (b.toNat / 16) (by omega)
    have hlow := digit (b.toNat % 16) (by omega)
    change Text.lower (_ :: _ :: hex rest) = _ :: _ :: hex rest
    simp only [Text.lower, List.map_cons, hhigh, hlow]
    rw [← Text.lower, ih]

theorem of_downloaderFetch {maxBytes : ℕ} {url : Url} {declared : Option Checksum}
    {answer : Answer} {file : Downloaded}
    (h : Downloader.fetch T maxBytes url declared answer = .ok file) :
    file.sha256 = hex (T.sha256 file.file) := by
  unfold Downloader.fetch at h
  split at h
  next found hfound =>
    obtain rfl := Except.ok.inj h
    unfold cachedFile at hfound
    split at hfound
    · split_ifs at hfound
      obtain rfl := Option.some.inj hfound
      rfl
    · simp at hfound
  · split at h
    · simp at h
    · split_ifs at h
      split at h
      · simp at h
      · obtain rfl := Except.ok.inj h
        rfl

end Digests

section Assessed

variable {d d' d'' : Draft} {state : Draft × List Wanted}

def Draft.Noted (d d' : Draft) : Prop :=
  d'.id = d.id ∧ d'.version = d.version ∧ d'.downloads = d.downloads

theorem Draft.Noted.refl (d : Draft) : d.Noted d := ⟨rfl, rfl, rfl⟩

theorem Draft.Noted.trans (h : d.Noted d') (h' : d'.Noted d'') : d.Noted d'' :=
  ⟨h'.1.trans h.1, h'.2.1.trans h.2.1, h'.2.2.trans h.2.2⟩

theorem foldl_noted {σ α : Type} (draft : σ → Draft) {f : σ → α → σ}
    (step : ∀ s a, (draft s).Noted (draft (f s a))) (as : List α) (s : σ) :
    (draft s).Noted (draft (as.foldl f s)) := by
  induction as generalizing s with
  | nil => exact Draft.Noted.refl _
  | cons a rest ih => exact (step s a).trans (ih (f s a))

theorem addCall_noted (call : Call) : state.1.Noted (addCall state call).1 := by
  unfold addCall noteOrigin
  split
  · exact Draft.Noted.refl _
  · cases call.origin <;> exact ⟨rfl, rfl, rfl⟩

theorem apply_noted (o : Override) (root : Bool) : state.1.Noted (o.apply root state).1 := by
  have rewrite (state : Draft × List Wanted) (rewrite : Url × Url) :
      state.1.Noted (applyRewrite state rewrite).1 := by
    simp only [applyRewrite]
    split <;> exact ⟨rfl, rfl, rfl⟩
  have download (state : Draft × List Wanted) (extra : ExtraDownload) :
      state.1.Noted (applyDownload state extra).1 := by
    simp only [applyDownload]
    split <;> exact ⟨rfl, rfl, rfl⟩
  refine Draft.Noted.trans ?_ (foldl_noted Prod.fst download _ _)
  refine Draft.Noted.trans ?_ (foldl_noted Prod.fst rewrite _ _)
  cases o.script <;> cases o.packageParameters <;> cases root <;> exact ⟨rfl, rfl, rfl⟩

theorem assess_noted (capture : Except String Capture) (timeoutSecs : ℕ) (o : Option Override)
    (root : Bool) (d : Draft) : d.Noted (assess capture timeoutSecs o root d).1 := by
  unfold assess
  cases capture with
  | error err => exact ⟨rfl, rfl, rfl⟩
  | ok raw =>
    have hnoted : d.Noted (raw.noteIncomplete timeoutSecs d) := by
      unfold Capture.noteIncomplete
      cases raw.incomplete timeoutSecs <;> exact ⟨rfl, rfl, rfl⟩
    simp only
    generalize raw.noteIncomplete timeoutSecs d = d' at hnoted ⊢
    refine hnoted.trans ?_
    cases raw.calls with
    | error reasons =>
      refine foldl_noted (fun d => d) ?_ reasons d'
      intro d reason
      exact ⟨rfl, rfl, rfl⟩
    | ok calls =>
      have hcalls := foldl_noted Prod.fst (fun _ call => addCall_noted call) calls
        (d', [])
      cases o with
      | none => exact hcalls
      | some o => exact hcalls.trans (apply_noted o root)

end Assessed

namespace Run

variable {T : Tools} {run : Run} {url : Url} {checksum : Option Checksum}

/-- The file that was downloaded last for a URL has every checksum that is declared for it. -/
def LastPinned (T : Tools) (run : Run) : Prop :=
  ∀ url checksum, run.Captured url checksum → ∀ g, run.lastFor T url = some g →
    ∀ sum ∈ checksum, checksumOf T sum.kind g.file.file = sum.hex

/-- The file that was downloaded last for a URL is the one that was given its name first. -/
def LastNamedFirst (T : Tools) (run : Run) : Prop :=
  ∀ url checksum, run.Captured url checksum → ∀ g, run.lastFor T url = some g →
    ∀ f, run.firstNamed T g.name = some f → f.file.file = g.file.file

/-- In an internalized package every download is recorded with its name. -/
theorem of_internalized (h : (run.recorded T).draft.status = .internalized) :
    (run.given T).map (·.wanted) = run.assessed.2 ∧
      (∀ g ∈ run.given T, g.file.sha256 = hex (T.sha256 g.file.file)) ∧
      (run.recorded T).draft.downloads = (run.given T).map Given.entry ∧
      run.given T ≠ [] ∧
      (run.recorded T).attachments = ((run.given T).map Given.attachment).foldl attach [] := by
  obtain ⟨hclean, hdownloads⟩ := Draft.status_eq_internalized.mp h
  obtain ⟨hid, hversion, hnone⟩ := assess_noted run.capture run.timeoutSecs run.override run.root
    { id := run.id, version := run.version }
  obtain ⟨-, gs, hgs, hwanted, hmem, hentries, hattachments⟩ :=
    recordAll_clean (r := ⟨run.assessed.1, [], []⟩) hid hversion hclean
  have hgiven : run.given T = gs := by
    rw [given, hgs]
    rfl
  have hentries' : (run.recorded T).draft.downloads = gs.map Given.entry := by
    rw [recorded, recordAll, hentries]
    change run.assessed.1.downloads ++ _ = _
    rw [assessed, hnone, List.nil_append]
  rw [hgiven]
  refine ⟨?_, ?_, hentries', ?_, hattachments⟩
  · rw [hwanted, results, fetchWanted, List.map_map]
    exact List.zipIdx_map_fst 0 _
  · intro g hg
    have hresult := hmem g hg
    rw [results, fetchWanted, List.mem_map] at hresult
    obtain ⟨⟨w, n⟩, -, hfetch⟩ := hresult
    exact of_downloaderFetch (Prod.ext_iff.mp hfetch).2
  · rintro rfl
    exact hdownloads hentries'

/-- A captured URL has a download, the last of which its key in the prelude finds. -/
theorem exists_lastFor (hstatus : (run.recorded T).draft.status = .internalized)
    (hdistinct : NoCollision T run) (h : run.Captured url checksum) :
    ∃ g ∈ run.given T, run.lastFor T url = some g ∧
      (run.given T).reverse.find? (urlKey T ·.wanted.url = urlKey T url) = some g := by
  obtain ⟨hwanted, -, -, -, -⟩ := of_internalized hstatus
  obtain ⟨w, hw, hurl, -⟩ := h.wants
  have hkey : run.lastFor T url =
      (run.given T).reverse.find? (urlKey T ·.wanted.url = urlKey T url) := by
    apply List.find?_congr
    intro g hg
    rw [List.mem_reverse] at hg
    have hmem : g.wanted ∈ run.assessed.2 := hwanted ▸ List.mem_map_of_mem hg
    refine decide_eq_decide.mpr ⟨fun heq => by rw [heq], fun heq => ?_⟩
    rw [← hurl] at heq ⊢
    exact hdistinct.urls _ hmem _ hw heq
  have hsome : (run.lastFor T url).isSome := by
    rw [← hwanted, List.mem_map] at hw
    obtain ⟨g, hg, rfl⟩ := hw
    rw [lastFor, List.find?_isSome]
    exact ⟨g, by simpa using hg, by simpa using hurl⟩
  obtain ⟨g, hg⟩ := Option.isSome_iff_exists.mp hsome
  exact ⟨g, by simpa using List.mem_of_find?_eq_some hg, hg, hkey ▸ hg⟩

/-- The file that was given a name first is the one that is attached under it. -/
theorem exists_firstNamed (hstatus : (run.recorded T).draft.status = .internalized) {g : Given}
    (hg : g ∈ run.given T) : ∃ f ∈ run.given T, run.firstNamed T g.name = some f ∧
      f.name = g.name ∧ f.attachment ∈ (run.recorded T).attachments ∧
        ∀ a ∈ (run.recorded T).attachments, a.name = g.name → a = f.attachment := by
  obtain ⟨-, -, -, -, hattachments⟩ := of_internalized hstatus
  have hsome : (run.firstNamed T g.name).isSome := by
    rw [firstNamed, List.find?_isSome]
    exact ⟨g, hg, by simp⟩
  obtain ⟨f, hf⟩ := Option.isSome_iff_exists.mp hsome
  have hfound : (run.given T).find? ((fun b : Attachment => decide (b.name = g.name)) ∘
      Given.attachment) = some f := hf
  have hattached := find?_attached ((run.given T).map Given.attachment) g.name
  rw [List.find?_map, hfound] at hattached
  refine ⟨f, List.mem_of_find?_eq_some hf, hf, by simpa using List.find?_some hf, ?_, ?_⟩
  · exact hattachments ▸ List.mem_of_find?_eq_some hattached
  · intro a ha heq
    have ha' := find?_of_mem_attached (hattachments ▸ ha)
    rw [heq, hattached] at ha'
    exact (Option.some.inj ha').symm

/-- Downloaded files are the same if their SHA-256 is. -/
theorem sha256_eq_iff (hstatus : (run.recorded T).draft.status = .internalized)
    (hdistinct : NoCollision T run) {f g : Given} (hf : f ∈ run.given T) (hg : g ∈ run.given T) :
    f.file.sha256 = Text.lower g.file.sha256 ↔ f.file.file = g.file.file := by
  obtain ⟨-, hsha256, -, -, -⟩ := of_internalized hstatus
  rw [hsha256 f hf, hsha256 g hg, lower_hex]
  exact ⟨fun heq => hdistinct.files f hf g hg (hex_injective heq), fun heq => by rw [heq]⟩

/-- A captured URL is mapped to an attached file with its checksums if and only if the file that
was downloaded last for it has these and is the first of its name. -/
theorem maps_captured_iff (hstatus : (run.recorded T).draft.status = .internalized)
    (hdistinct : NoCollision T run) {dir : Text} {map : FileMap}
    (hdir : filesDir run.id run.version = .ok dir)
    (hlookup : ∀ key, map.lookup key =
      ((run.given T).reverse.find? (urlKey T ·.wanted.url = key)).map (·.mapped dir))
    (h : run.Captured url checksum) :
    Maps T run map url checksum ↔ ∀ g, run.lastFor T url = some g →
      (∀ sum ∈ checksum, checksumOf T sum.kind g.file.file = sum.hex) ∧
        ∀ f, run.firstNamed T g.name = some f → f.file.file = g.file.file := by
  obtain ⟨g, hg, hlast, hkey⟩ := exists_lastFor hstatus hdistinct h
  obtain ⟨f, hf, hfirst, hname, hattached, honly⟩ := exists_firstNamed hstatus hg
  have hmapped : map.lookup (urlKey T url) = some (g.mapped dir) := by
    rw [hlookup, hkey]
    rfl
  constructor
  · rintro ⟨a, ha, dir', hdir', hvalue, hsums⟩ g' hg'
    obtain rfl := Option.some.inj (hlast.symm.trans hg')
    rw [hdir] at hdir'
    obtain rfl := Except.ok.inj hdir'
    rw [hmapped, Given.mapped, Option.some.injEq, Prod.mk.injEq] at hvalue
    obtain rfl := honly a ha (List.append_cancel_left hvalue.1).symm
    have hsame := (sha256_eq_iff hstatus hdistinct hf hg).mp hvalue.2.symm
    refine ⟨fun sum hsum => hsame ▸ hsums sum hsum, fun f' hf' => ?_⟩
    obtain rfl := Option.some.inj (hfirst.symm.trans hf')
    exact hsame
  · intro h
    obtain ⟨hsums, hsame⟩ := h g hlast
    have hsame := hsame f hfirst
    refine ⟨f.attachment, hattached, dir, hdir, ?_, fun sum hsum => ?_⟩
    · rw [hmapped, Given.mapped, ← (sha256_eq_iff hstatus hdistinct hf hg).mpr hsame, ← hname]
      rfl
    · exact (congrArg (checksumOf T sum.kind) hsame).trans (hsums sum hsum)

/-- The prelude of an internalized package maps every captured URL to an attached file with the
declared checksum, if and only if the file that was downloaded last for a URL has the checksums
declared for it and is the first of its name. -/
theorem maps_iff {prelude : Option FileMap}
    (hstatus : (run.recorded T).draft.status = .internalized)
    (hrender : render T run.id run.version (run.recorded T).draft.downloads = .ok prelude)
    (hdistinct : NoCollision T run) :
    (∃ map, prelude = some map ∧ ∀ url checksum, run.Captured url checksum →
      Maps T run map url checksum) ↔ LastPinned T run ∧ LastNamedFirst T run := by
  obtain ⟨-, -, hdownloads, hne, -⟩ := of_internalized hstatus
  rw [hdownloads] at hrender
  obtain ⟨dir, map, hdir, rfl, hlookup⟩ := of_render hne hrender
  have hmaps {url : Url} {checksum : Option Checksum} (h : run.Captured url checksum) :=
    maps_captured_iff hstatus hdistinct hdir hlookup h
  constructor
  · rintro ⟨map', hmap', h⟩
    obtain rfl := Option.some.inj hmap'
    exact ⟨fun url checksum hc g hg => ((hmaps hc).mp (h url checksum hc) g hg).1,
      fun url checksum hc g hg => ((hmaps hc).mp (h url checksum hc) g hg).2⟩
  · rintro ⟨hpinned, hnamed⟩
    exact ⟨map, rfl, fun url checksum hc =>
      (hmaps hc).mpr fun g hg => ⟨hpinned url checksum hc g hg, hnamed url checksum hc g hg⟩⟩

/-! Samples: runs over small executables, with the SHA-256 of these and of the URLs. -/

def sampleFile (n : UInt8) : Bytes := [0x4d, 0x5a, n]

def sampleUrl : Url := "https://example.com/setup.exe".toList

def sampleNewUrl : Url := "https://example.com/new/setup.exe".toList

/-- A URL whose name has the digest of the third file in front. -/
def samplePrefixedUrl : Url := "https://example.com/5d4a196d-setup.exe".toList

def sampleDigests : List (Bytes × Bytes) :=
  [(sampleFile 1,
    [159, 117, 249, 82, 219, 58, 38, 230, 57, 187, 128, 4, 88, 66, 234, 89, 184, 93, 181, 113,
      119, 35, 90, 176, 11, 101, 147, 22, 65, 74, 48, 29]),
  (sampleFile 2,
    [124, 254, 143, 64, 70, 90, 80, 183, 191, 171, 81, 174, 22, 244, 123, 137, 12, 66, 79, 98, 63,
      78, 146, 80, 46, 204, 250, 93, 45, 249, 43, 211]),
  (sampleFile 3,
    [93, 74, 25, 109, 52, 192, 2, 154, 251, 200, 215, 40, 245, 172, 89, 135, 132, 104, 171, 17,
      73, 208, 254, 180, 75, 204, 139, 77, 248, 33, 181, 189]),
  (utf8 sampleUrl,
    [70, 249, 119, 9, 138, 81, 215, 212, 190, 47, 55, 189, 25, 214, 139, 139, 137, 14, 96, 21,
      146, 6, 59, 204, 77, 39, 193, 37, 115, 73, 240, 197]),
  (utf8 sampleNewUrl,
    [115, 69, 175, 82, 81, 75, 167, 142, 89, 17, 108, 240, 37, 8, 148, 130, 144, 245, 29, 49, 167,
      240, 228, 118, 247, 117, 52, 41, 109, 31, 189, 164]),
  (utf8 samplePrefixedUrl,
    [194, 31, 38, 91, 41, 165, 35, 224, 120, 128, 66, 132, 124, 239, 228, 138, 240, 126, 9, 226,
      11, 118, 103, 199, 8, 142, 117, 4, 12, 74, 73, 153])]

def sampleTools : Tools where
  md5 _ := []
  sha1 _ := []
  sha256 bytes := (sampleDigests.lookup bytes).getD []
  sha512 _ := []
  scheme url := url.takeWhile (· != ':')
  pathSegments url := some ((url.splitOn '/').drop 3)
  redact url := String.ofList url

def sampleChecksum (n : UInt8) : Checksum :=
  ⟨.sha256, checksumOf sampleTools .sha256 (sampleFile n)⟩

def sampleCall (url : Url) (checksum : Option Checksum) : Call :=
  ⟨.installChocolateyPackage, some url, none, checksum, none, some "exe".toList, .package⟩

/-- The scripts make the calls, and the hosts answer the downloads with the files. -/
def sampleRun (calls : List Call) (files : List UInt8) : Run where
  id := "app".toList
  version := "1.0.0".toList
  capture := .ok ⟨some 0, false, .ok calls⟩
  timeoutSecs := 60
  override := none
  root := true
  allowed := ["exe".toList]
  maxBytes := 1000
  answers n := ⟨none, .ok ⟨sampleFile (files.getD n 0), none, none⟩⟩

/-- Two calls whose files would have one name, and the first once more without its checksum. -/
def pinnedRun : Run :=
  sampleRun [sampleCall sampleUrl (some (sampleChecksum 1)),
    sampleCall sampleNewUrl (some (sampleChecksum 2)), sampleCall sampleUrl none] [1, 2, 1]

theorem maps_iff_sample : ∃ map, render sampleTools pinnedRun.id pinnedRun.version
      (pinnedRun.recorded sampleTools).draft.downloads = .ok (some map) ∧
    ∀ url checksum, pinnedRun.Captured url checksum →
      Maps sampleTools pinnedRun map url checksum := by
  have hstatus : (pinnedRun.recorded sampleTools).draft.status = .internalized := by
    decide +kernel
  have hrender : render sampleTools pinnedRun.id pinnedRun.version
      (pinnedRun.recorded sampleTools).draft.downloads =
      .ok (some [(urlKey sampleTools sampleUrl, "files/app/1.0.0/setup.exe".toList,
          (sampleChecksum 1).hex),
        (urlKey sampleTools sampleNewUrl, "files/app/1.0.0/7cfe8f40-setup.exe".toList,
          (sampleChecksum 2).hex)]) := by
    decide +kernel
  have hdistinct : NoCollision sampleTools pinnedRun :=
    ⟨by decide +kernel, by decide +kernel⟩
  have hlast : (∀ g ∈ pinnedRun.lastFor sampleTools sampleUrl, g.file.file = sampleFile 1) ∧
      ∀ g ∈ pinnedRun.lastFor sampleTools sampleNewUrl, g.file.file = sampleFile 2 := by
    decide +kernel
  have hpinned : LastPinned sampleTools pinnedRun := by
    rintro url checksum ⟨call, hcall, hmem⟩ g hg sum hsum
    change call ∈ [sampleCall sampleUrl (some (sampleChecksum 1)),
      sampleCall sampleNewUrl (some (sampleChecksum 2)), sampleCall sampleUrl none] at hcall
    rw [List.mem_cons, List.mem_cons, List.mem_singleton] at hcall
    rcases hcall with rfl | rfl | rfl
    · rcases List.mem_cons.mp hmem with heq | hmem
      · cases heq
        cases hsum
        exact congrArg (checksumOf sampleTools .sha256) (hlast.1 g hg)
      · cases List.mem_singleton.mp hmem
    · rcases List.mem_cons.mp hmem with heq | hmem
      · cases heq
        cases hsum
        exact congrArg (checksumOf sampleTools .sha256) (hlast.2 g hg)
      · cases List.mem_singleton.mp hmem
    · rcases List.mem_cons.mp hmem with heq | hmem
      · cases heq
        cases hsum
      · cases List.mem_singleton.mp hmem
  have hfirst : ∀ g ∈ pinnedRun.given sampleTools,
      ∀ f ∈ pinnedRun.firstNamed sampleTools g.name, f.file.file = g.file.file := by
    decide +kernel
  have hnamed : LastNamedFirst sampleTools pinnedRun := fun url checksum _ g hg f hf =>
    hfirst g (by simpa using List.mem_of_find?_eq_some hg) f hf
  obtain ⟨map, hmap, h⟩ := (maps_iff hstatus hrender hdistinct).mpr ⟨hpinned, hnamed⟩
  exact ⟨map, hmap ▸ hrender, h⟩

/-- The second call for the URL states no checksum, and its host answers with another file. -/
def repeatedRun : Run :=
  sampleRun [sampleCall sampleUrl (some (sampleChecksum 1)), sampleCall sampleUrl none] [1, 2]

/-- The name that the third file gets is the one of the first file. -/
def clashingRun : Run :=
  sampleRun [sampleCall samplePrefixedUrl none, sampleCall sampleUrl none,
    sampleCall sampleNewUrl (some (sampleChecksum 3))] [1, 2, 3]

/-- The run marks its package internalized, and its prelude leaves a captured call unmatched. -/
def Unverified (T : Tools) (run : Run) : Prop :=
  (run.recorded T).draft.status = .internalized ∧
    ¬∃ map, render T run.id run.version (run.recorded T).draft.downloads = .ok (some map) ∧
      ∀ url checksum, run.Captured url checksum → Maps T run map url checksum

/-- Internalized packages that use a file without the checksum that their scripts declare. -/
theorem unverified_file_mapped :
    Unverified sampleTools repeatedRun ∧ Unverified sampleTools clashingRun := by
  have refute (run : Run) (url : Url) (n : UInt8) (hcaptured : run.Captured url
      (some (sampleChecksum n))) (hnone : ∀ a ∈ (run.recorded sampleTools).attachments,
      ∀ prelude ∈ (render sampleTools run.id run.version
        (run.recorded sampleTools).draft.downloads).toOption, ∀ map ∈ prelude,
      (map.lookup (urlKey sampleTools url)).map Prod.snd = some a.sha256 →
        checksumOf sampleTools .sha256 a.file ≠ (sampleChecksum n).hex) :
      ¬∃ map, render sampleTools run.id run.version (run.recorded sampleTools).draft.downloads =
        .ok (some map) ∧
        ∀ url checksum, run.Captured url checksum → Maps sampleTools run map url checksum := by
    rintro ⟨map, hrender, h⟩
    obtain ⟨a, ha, dir, -, hlookup, hsum⟩ := h url _ hcaptured
    refine hnone a ha (some map) (by rw [hrender]; rfl) map rfl ?_ (hsum _ rfl)
    rw [hlookup]
    rfl
  constructor
  · constructor
    · decide +kernel
    · apply refute _ sampleUrl 1
      · exact ⟨_, List.mem_cons_self, List.mem_cons_self⟩
      · decide +kernel
  · constructor
    · decide +kernel
    · apply refute _ sampleNewUrl 3
      · exact ⟨_, List.mem_cons_of_mem _ (List.mem_cons_of_mem _ List.mem_cons_self),
          List.mem_cons_self⟩
      · decide +kernel

end Run

end YaNuget.Internalize
