import YaNuget.Data.Slices
import YaNuget.Internalize.Assess

/-!
# The names given to a package's files

Two files of one package never get names that differ in case alone, and a file
that several downloads share is attached once, as far as two things hold. A
file that is asked for again has a name without upper case, as it gets its name
back in lower case. And a name behind a digest, which takes the place of a name
already given, has not been given itself.
-/
namespace YaNuget.Internalize

def isNameChar (c : Char) : Bool := c.isAlphanum || c ∈ ['.', '_', '-']

theorem isAscii_of_nameChars {t : Text} (h : ∀ c ∈ t, isNameChar c = true) :
    Text.isAscii t = true := by
  rw [Text.isAscii, List.all_eq_true]
  intro c hc
  have hname := h c hc
  simp only [isNameChar, Bool.or_eq_true, Text.isAlphanum_iff, List.mem_cons, List.not_mem_nil,
    or_false, decide_eq_true_eq] at hname
  rcases hname with hname | rfl | rfl | rfl
  · exact decide_eq_true (by omega)
  · decide
  · decide
  · decide

theorem mem_trimEndMatches {p : Char → Bool} {t : Text} {c : Char} (h : c ∈ trimEndMatches p t) :
    c ∈ t := by
  rw [trimEndMatches, List.mem_reverse] at h
  exact List.mem_reverse.mp ((List.dropWhile_suffix p).subset h)

theorem rsplitOnce_eq_some {sep : Char} {t a b : Text} (h : rsplitOnce sep t = some (a, b)) :
    t = a ++ sep :: b ∧ sep ∉ b := by
  simp only [rsplitOnce, Option.map_eq_some_iff, Prod.mk.injEq] at h
  obtain ⟨⟨b', a'⟩, hsplit, rfl, rfl⟩ := h
  obtain ⟨heq, hnot⟩ := Text.splitOnce_eq_some hsplit
  constructor
  · rw [← List.reverse_reverse t, heq]
    simp
  · simpa using hnot

theorem nameChars_of_sanitize (t : Text) : ∀ c ∈ sanitize t, isNameChar c = true := by
  intro c hc
  have hfold (t out : Text) (hout : ∀ c ∈ out, isNameChar c = true) :
      ∀ c ∈ t.foldl (fun out c =>
        if c.isAlphanum || c ∈ ['.', '_', '-'] then out ++ [c]
        else if out.getLast? = some '_' then out
        else out ++ ['_']) out, isNameChar c = true := by
    induction t generalizing out with
    | nil => exact hout
    | cons d t ih =>
      apply ih
      intro c hc
      beta_reduce at hc
      split_ifs at hc with hd hlast
      · rcases List.mem_append.mp hc with hc | hc
        · exact hout c hc
        · rw [List.mem_singleton.mp hc]
          exact hd
      · exact hout c hc
      · rcases List.mem_append.mp hc with hc | hc
        · exact hout c hc
        · rw [List.mem_singleton.mp hc]
          rfl
  rw [sanitize] at hc
  have hdrop := (List.dropWhile_suffix _).subset (mem_trimEndMatches hc)
  exact hfold t [] (by simp) c hdrop

theorem nameChars_of_extensions (kind : Kind) :
    ∀ ext ∈ kind.extensions, ∀ c ∈ ext, isNameChar c = true := by
  cases kind <;> simp [Kind.extensions] <;> decide

theorem mem_fit {name : Text} {c : Char} (h : c ∈ fit name) : c ∈ name := by
  unfold fit at h
  split_ifs at h
  · exact h
  · cases hsplit : rsplitOnce '.' name with
    | none =>
      rw [hsplit] at h
      exact List.mem_of_mem_take h
    | some parts =>
      obtain ⟨stem, ext⟩ := parts
      rw [hsplit] at h
      rw [(rsplitOnce_eq_some hsplit).1]
      rcases List.mem_append.mp h with h | h
      · exact List.mem_append_left _ (List.mem_of_mem_take (mem_trimEndMatches h))
      · exact List.mem_append_right _ h

theorem nameChars_of_fileNameProblem {name : Text} {allowed : List Text}
    (h : fileNameProblem name allowed = none) : ∀ c ∈ name, isNameChar c = true := by
  unfold fileNameProblem at h
  split_ifs at h with hlen hchars
  all_goals
    rw [Bool.not_eq_true', Bool.not_eq_false, List.all_eq_true] at hchars
    exact hchars

/-- The cut as the bytes are sliced, which panics where the cut falls inside a character. -/
def fitSliced (name : Text) : Option Text :=
  if Text.byteLen name ≤ maxFileNameLength then some name
  else
    match rsplitOnce '.' name with
    | some (stem, ext) =>
      let room := maxFileNameLength - (Text.byteLen ext + 1)
      (Text.sliceTo (min room (Text.byteLen stem)) stem).map fun stem =>
        trimEndMatches isStemEnd stem ++ '.' :: ext
    | none => Text.sliceTo maxFileNameLength name

theorem fitSliced_of_ascii {name : Text} (h : Text.isAscii name = true) :
    fitSliced name = some (fit name) := by
  unfold fitSliced fit
  split_ifs with hlen
  · rfl
  · cases hsplit : rsplitOnce '.' name with
    | none =>
      rw [Text.byteLen_of_ascii h] at hlen
      exact Text.sliceTo_of_ascii h (by omega)
    | some parts =>
      obtain ⟨stem, ext⟩ := parts
      obtain ⟨rfl, -⟩ := rsplitOnce_eq_some hsplit
      obtain ⟨hstem, hrest⟩ := Text.isAscii_append.mp h
      have hext := (Text.isAscii_cons.mp hrest).2
      simp only [Text.byteLen_of_ascii hstem, Text.byteLen_of_ascii hext,
        Text.sliceTo_of_ascii hstem (Nat.min_le_right _ _), Option.map_some, Option.some.injEq,
        List.append_cancel_right_eq]
      rw [← List.take_eq_take_min]

section Sliced

variable (pathSegments : Url → Option (List Text))

def ownName (file : Source) : Option Text :=
  (lastSegment pathSegments file.url).filter fun original =>
    isClean original && (rsplitOnce '.' original).any fun parts => file.kind.fits parts.2

/-- The stem and the extension that a candidate gives. -/
def stemAndExt (c : Text) : Option (Text × Option Text) :=
  let clean := sanitize c
  let (stem, ext) := match (rsplitOnce '.' clean).filter fun parts => !parts.1.isEmpty with
    | some (stem, ext) => (stem, some ext)
    | none => (clean, none)
  let stem := trimEndMatches isStemEnd stem
  if stem.isEmpty then none else some (stem, ext)

def firstStem (file : Source) : Text × Option Text :=
  let candidates := [file.contentDisposition.bind dispositionName,
    file.finalUrl.bind (lastSegment pathSegments), lastSegment pathSegments file.url]
  (candidates.findSome? fun candidate => candidate.bind stemAndExt).getD
    (sanitize file.fallback, none)

/-- The extension that fits the content: the candidate's, the captured one or the kind's own. -/
def fittingExt (file : Source) (ext : Option Text) : Text :=
  (((ext.filter file.kind.fits).or ((file.fileType.map Text.lower).filter file.kind.fits)).or
    file.kind.extensions.head?).getD []

/-- The name made from what is known, before it is cut to fit. -/
def madeName (file : Source) : Text :=
  let stem := (firstStem pathSegments file).1
  let ext := fittingExt file (firstStem pathSegments file).2
  if ext.isEmpty then stem.map fun c => if c = '.' then '_' else c
  else stem ++ '.' :: ext

theorem pick_eq (file : Source) :
    pick pathSegments file = (ownName pathSegments file).getD (fit (madeName pathSegments file)) := by
  unfold pick madeName ownName
  cases (lastSegment pathSegments file.url).filter fun original =>
    isClean original && (rsplitOnce '.' original).any fun parts => file.kind.fits parts.2 with
  | some original => rfl
  | none => exact (apply_ite fit _ _ _).symm

def pickSliced (file : Source) : Option Text :=
  match ownName pathSegments file with
  | some original => some original
  | none => fitSliced (madeName pathSegments file)

/-- The name given to a file, none when giving it panics. -/
def Names.nameSliced (names : Names) (file : Source) (allowed : List Text) :
    Option (Except String Text × Names) :=
  match names.find? (·.2 = file.sha256) with
  | some (name, _) => some (.ok name, names)
  | none => do
    let picked ← pickSliced pathSegments file
    let ext := ((rsplitOnce '.' picked).map (·.2)).getD []
    if !extensionAllowed allowed ext then
      let shown := ", ".intercalate (allowed.map String.ofList)
      pure (.error (s!"{String.ofList picked}: the feed takes no .{String.ofList ext} files " ++
        s!"(allowed: {shown})"), names)
    else
      let name ← if names.any (·.1 = Text.lower picked) then
        fitSliced (file.sha256.take 8 ++ '-' :: picked) else pure picked
      match fileNameProblem name allowed with
      | some why => pure (.error s!"{String.ofList name}: {why}", names)
      | none => pure (.ok name, names.insert name file.sha256)

end Sliced

/-- A file to be named: its digest is in hex, and its captured type, if any, is of letters and
digits. -/
structure Asked where
  source : Source
  content : Bytes
  sha256_ascii : Text.isAscii source.sha256 = true
  fileType_ascii : ∀ t ∈ source.fileType, Text.isAscii t = true

section Panics

variable (pathSegments : Url → Option (List Text))

theorem isAscii_lower {t : Text} (h : Text.isAscii t = true) :
    Text.isAscii (Text.lower t) = true := by
  rw [Text.isAscii, List.all_eq_true] at h ⊢
  intro c hc
  obtain ⟨d, hd, rfl⟩ := List.mem_map.mp hc
  have hlt := of_decide_eq_true (h d hd)
  rcases Text.toLower_cases d with ⟨-, hle, heq⟩ | ⟨-, heq⟩
  · exact decide_eq_true (by omega)
  · exact decide_eq_true (by rwa [heq])

theorem isAscii_of_stemAndExt {c stem : Text} {ext : Option Text}
    (h : stemAndExt c = some (stem, ext)) :
    Text.isAscii stem = true ∧ ∀ e ∈ ext, Text.isAscii e = true := by
  have hclean := isAscii_of_nameChars (nameChars_of_sanitize c)
  have htrim (t : Text) : ∀ c ∈ trimEndMatches isStemEnd t, c ∈ t := fun c => mem_trimEndMatches
  unfold stemAndExt at h
  cases hsplit : (rsplitOnce '.' (sanitize c)).filter fun parts => !parts.1.isEmpty with
  | none =>
    simp only [hsplit, Option.ite_none_left_eq_some, Option.some.injEq, Prod.mk.injEq] at h
    obtain ⟨-, rfl, rfl⟩ := h
    exact ⟨Text.isAscii_of_subset (htrim _) hclean, by simp⟩
  | some parts =>
    simp only [hsplit, Option.ite_none_left_eq_some, Option.some.injEq, Prod.mk.injEq] at h
    obtain ⟨-, rfl, rfl⟩ := h
    rw [(rsplitOnce_eq_some (Option.filter_eq_some_iff.mp hsplit).1).1] at hclean
    obtain ⟨hstem, hrest⟩ := Text.isAscii_append.mp hclean
    constructor
    · exact Text.isAscii_of_subset (htrim _) hstem
    · rintro e ⟨⟩
      exact (Text.isAscii_cons.mp hrest).2

theorem isAscii_firstStem (file : Source) :
    Text.isAscii (firstStem pathSegments file).1 = true ∧
      ∀ e ∈ (firstStem pathSegments file).2, Text.isAscii e = true := by
  unfold firstStem
  cases hfirst : [file.contentDisposition.bind dispositionName,
    file.finalUrl.bind (lastSegment pathSegments), lastSegment pathSegments file.url].findSome?
      fun candidate => candidate.bind stemAndExt with
  | none =>
    simp only [hfirst, Option.getD_none]
    exact ⟨isAscii_of_nameChars (nameChars_of_sanitize _), by simp⟩
  | some parts =>
    obtain ⟨candidate, -, hsome⟩ := List.exists_of_findSome?_eq_some hfirst
    obtain ⟨c, -, hsome⟩ := Option.bind_eq_some_iff.mp hsome
    simp only [hfirst, Option.getD_some]
    exact isAscii_of_stemAndExt hsome

theorem isAscii_fittingExt (file : Asked) {ext : Option Text}
    (h : ∀ e ∈ ext, Text.isAscii e = true) :
    Text.isAscii (fittingExt file.source ext) = true := by
  unfold fittingExt
  cases hown : ext.filter file.source.kind.fits with
  | some e => exact h e (Option.filter_eq_some_iff.mp hown).1
  | none =>
    cases htype : (file.source.fileType.map Text.lower).filter file.source.kind.fits with
    | some e =>
      obtain ⟨t, ht, rfl⟩ := Option.map_eq_some_iff.mp (Option.filter_eq_some_iff.mp htype).1
      exact isAscii_lower (file.fileType_ascii t ht)
    | none =>
      cases hkind : file.source.kind.extensions.head? with
      | none => rfl
      | some e =>
        exact isAscii_of_nameChars
          (nameChars_of_extensions file.source.kind e (List.mem_of_mem_head? hkind))

theorem isAscii_madeName (file : Asked) :
    Text.isAscii (madeName pathSegments file.source) = true := by
  obtain ⟨hstem, hext⟩ := isAscii_firstStem pathSegments file.source
  have hfitting := isAscii_fittingExt file hext
  simp only [madeName]
  split_ifs
  · rw [Text.isAscii, List.all_eq_true] at hstem ⊢
    intro c hc
    obtain ⟨d, hd, rfl⟩ := List.mem_map.mp hc
    split_ifs
    · decide
    · exact hstem d hd
  · exact Text.isAscii_append.mpr ⟨hstem, Text.isAscii_cons.mpr ⟨by decide, hfitting⟩⟩

theorem isAscii_ownName {pathSegments : Url → Option (List Text)} {file : Source} {original : Text}
    (h : ownName pathSegments file = some original) : Text.isAscii original = true := by
  obtain ⟨-, hclean⟩ := Option.filter_eq_some_iff.mp h
  rw [Bool.and_eq_true, isClean, Option.isNone_iff_eq_none] at hclean
  exact isAscii_of_nameChars (nameChars_of_fileNameProblem hclean.1)

theorem pickSliced_eq (file : Asked) :
    pickSliced pathSegments file.source = some (pick pathSegments file.source) ∧
      Text.isAscii (pick pathSegments file.source) = true := by
  rw [pick_eq, pickSliced]
  cases hown : ownName pathSegments file.source with
  | some original => exact ⟨rfl, isAscii_ownName hown⟩
  | none =>
    have hmade := isAscii_madeName pathSegments file
    exact ⟨fitSliced_of_ascii hmade, Text.isAscii_of_subset (fun c => mem_fit) hmade⟩

/-- Giving a name to a file never panics, and cuts no name inside a character. -/
theorem Names.nameSliced_eq (names : Names) (file : Asked) (allowed : List Text) :
    names.nameSliced pathSegments file.source allowed =
      some (names.name pathSegments file.source allowed) := by
  obtain ⟨hpick, hascii⟩ := pickSliced_eq pathSegments file
  have hprefixed : Text.isAscii (file.source.sha256.take 8 ++
      '-' :: pick pathSegments file.source) = true := by
    apply Text.isAscii_append.mpr
    constructor
    · exact Text.isAscii_of_subset (fun c hc => List.mem_of_mem_take hc) file.sha256_ascii
    · exact Text.isAscii_cons.mpr ⟨by decide, hascii⟩
  unfold Names.nameSliced Names.name
  cases names.find? (·.2 = file.source.sha256) with
  | some found => rfl
  | none =>
    simp only [hpick, Option.bind_eq_bind, Option.bind_some, Option.pure_def,
      fitSliced_of_ascii hprefixed]
    split_ifs
    · rfl
    · cases fileNameProblem (fit (file.source.sha256.take 8 ++ '-' :: pick pathSegments file.source))
        allowed <;> rfl
    · cases fileNameProblem (pick pathSegments file.source) allowed <;> rfl

end Panics

/-- The files asked for so far, each with its name or why it cannot be attached. -/
abbrev Log := List (Asked × Except String Text)

/-- What gets its file a name of its own, where the name picked is given already. -/
def prefixedName (pathSegments : Url → Option (List Text)) (file : Source) : Text :=
  fit (file.sha256.take 8 ++ '-' :: pick pathSegments file)

def pickedExt (pathSegments : Url → Option (List Text)) (file : Source) : Text :=
  ((rsplitOnce '.' (pick pathSegments file)).map (·.2)).getD []

section Runs

variable (pathSegments : Url → Option (List Text)) (allowed : List Text)

def nameNext (state : Names × Log) (file : Asked) : Option (Names × Log) :=
  (state.1.nameSliced pathSegments file.source allowed).map fun (result, names) =>
    (names, state.2 ++ [(file, result)])

/-- Name the files, none when that panics. -/
def nameAll (files : List Asked) : Option (Names × Log) :=
  files.foldlM (nameNext pathSegments allowed) ([], [])

def attachAll (log : Log) : List Attachment :=
  log.foldl (fun attachments (file, result) =>
    match result with
    | .ok name =>
      attach attachments ⟨name, file.content, file.content.length, file.source.sha256⟩
    | .error _ => attachments) []

/-- Files that differ have names that differ, ignoring case, one file has one name, and the feed
takes each name. -/
structure Stable (log : Log) : Prop where
  distinct : ∀ f n g m, (f, .ok n) ∈ log → (g, .ok m) ∈ log →
    f.source.sha256 ≠ g.source.sha256 → Text.lower n ≠ Text.lower m
  same : ∀ f n g m, (f, .ok n) ∈ log → (g, .ok m) ∈ log →
    f.source.sha256 = g.source.sha256 → n = m
  accepted : ∀ f n, (f, .ok n) ∈ log → fileNameProblem n allowed = none

/-- Each file that has a name is attached under it, and no digest is attached twice. -/
structure AttachedOnce (log : Log) : Prop where
  attached : ∀ f n, (f, .ok n) ∈ log →
    ∃ a ∈ attachAll log, a.name = n ∧ a.sha256 = f.source.sha256
  once : ((attachAll log).map (·.sha256)).Nodup

/-- The name picked is given already, and so is the name behind the digest that the file gets in
its place. -/
def Collides (names : Names) (file : Source) : Prop :=
  file.sha256 ∉ names.map (·.2) ∧ extensionAllowed allowed (pickedExt pathSegments file) = true ∧
    Text.lower (pick pathSegments file) ∈ names.map (·.1) ∧
    fileNameProblem (prefixedName pathSegments file) allowed = none ∧
    Text.lower (prefixedName pathSegments file) ∈ names.map (·.1)

/-- What keeps the names stable when the file is named next: a file asked for again has a name
without upper case, and another one does not collide. -/
def Settles (state : Names × Log) (file : Asked) : Prop :=
  (∀ g n, (g, .ok n) ∈ state.2 → g.source.sha256 = file.source.sha256 → Text.lower n = n) ∧
    ¬Collides pathSegments allowed state.1 file.source

def Records (names : Names) (log : Log) : Prop :=
  ∀ k s, (k, s) ∈ names ↔ ∃ f n, (f, .ok n) ∈ log ∧ k = Text.lower n ∧ s = f.source.sha256

variable {names names' : Names} {log : Log} {file : Asked} {result : Except String Text}

theorem name_of_known {file : Source} (h : file.sha256 ∈ names.map (·.2)) :
    ∃ k, (k, file.sha256) ∈ names ∧
      names.name pathSegments file allowed = (.ok k, names) := by
  obtain ⟨⟨k, s⟩, hmem, hsha⟩ := List.mem_map.mp h
  unfold Names.name
  cases hfind : names.find? (·.2 = file.sha256) with
  | none => exact absurd hsha (by simpa using List.find?_eq_none.mp hfind _ hmem)
  | some found =>
    have hfound : found.2 = file.sha256 := by simpa using List.find?_some hfind
    exact ⟨found.1, hfound ▸ List.mem_of_find?_eq_some hfind, rfl⟩

/-- A file that has no name yet gets the name picked, or the one behind its digest where that is
given already, as far as the feed takes it. -/
theorem name_of_new {file : Source} (h : file.sha256 ∉ names.map (·.2)) {name : Text}
    (hname : name = if Text.lower (pick pathSegments file) ∈ names.map (·.1) then
      prefixedName pathSegments file else pick pathSegments file) :
    (extensionAllowed allowed (pickedExt pathSegments file) = true ∧
        fileNameProblem name allowed = none ∧
        names.name pathSegments file allowed = (.ok name, names.insert name file.sha256)) ∨
      (¬(extensionAllowed allowed (pickedExt pathSegments file) = true ∧
          fileNameProblem name allowed = none) ∧
        ∃ why, names.name pathSegments file allowed = (.error why, names)) := by
  have hnone : names.find? (·.2 = file.sha256) = none := by
    simp only [List.find?_eq_none, decide_eq_true_eq]
    intro entry hmem heq
    exact h (List.mem_map.mpr ⟨entry, hmem, heq⟩)
  have hany : (names.any (·.1 = Text.lower (pick pathSegments file))) =
      decide (Text.lower (pick pathSegments file) ∈ names.map (·.1)) := by
    rw [Bool.eq_iff_iff]
    simp
  rw [prefixedName] at hname
  unfold Names.name
  simp only [hnone, hany, decide_eq_true_eq, ← hname]
  by_cases hext : extensionAllowed allowed (pickedExt pathSegments file) = true
  · rw [pickedExt] at hext
    cases hproblem : fileNameProblem name allowed with
    | none => simp [pickedExt, hext]
    | some why => simp [pickedExt, hext]
  · rw [pickedExt] at hext
    simp [pickedExt, hext]

variable {pathSegments allowed}

theorem Records.known (h : Records names log) (sha : Text) :
    sha ∈ names.map (·.2) ↔ ∃ f n, (f, .ok n) ∈ log ∧ f.source.sha256 = sha := by
  rw [List.mem_map]
  constructor
  · rintro ⟨⟨k, s⟩, hmem, rfl⟩
    obtain ⟨f, n, hlog, -, rfl⟩ := (h k s).mp hmem
    exact ⟨f, n, hlog, rfl⟩
  · rintro ⟨f, n, hlog, rfl⟩
    exact ⟨(Text.lower n, f.source.sha256), (h _ _).mpr ⟨f, n, hlog, rfl, rfl⟩, rfl⟩

theorem Records.taken (h : Records names log) (key : Text) :
    key ∈ names.map (·.1) ↔ ∃ f n, (f, .ok n) ∈ log ∧ Text.lower n = key := by
  rw [List.mem_map]
  constructor
  · rintro ⟨⟨k, s⟩, hmem, rfl⟩
    obtain ⟨f, n, hlog, rfl, -⟩ := (h k s).mp hmem
    exact ⟨f, n, hlog, rfl⟩
  · rintro ⟨f, n, hlog, rfl⟩
    exact ⟨(Text.lower n, f.source.sha256), (h _ _).mpr ⟨f, n, hlog, rfl, rfl⟩, rfl⟩

theorem mem_ok_concat {f : Asked} {n : Text} :
    (f, .ok n) ∈ log ++ [(file, result)] ↔ (f, .ok n) ∈ log ∨ (f = file ∧ result = .ok n) := by
  simp [eq_comm]

theorem Stable.of_concat (h : Stable allowed (log ++ [(file, result)])) : Stable allowed log where
  distinct f n g m hf hg :=
    h.distinct f n g m (List.mem_append_left _ hf) (List.mem_append_left _ hg)
  same f n g m hf hg := h.same f n g m (List.mem_append_left _ hf) (List.mem_append_left _ hg)
  accepted f n hf := h.accepted f n (List.mem_append_left _ hf)

theorem Stable.concat_error {why : String} (h : Stable allowed log) :
    Stable allowed (log ++ [(file, .error why)]) := by
  have hmem (f : Asked) (n : Text) (hf : (f, .ok n) ∈ log ++ [(file, .error why)]) :
      (f, .ok n) ∈ log := by
    simpa using hf
  constructor
  · intro f n g m hf hg
    exact h.distinct f n g m (hmem f n hf) (hmem g m hg)
  · intro f n g m hf hg
    exact h.same f n g m (hmem f n hf) (hmem g m hg)
  · intro f n hf
    exact h.accepted f n (hmem f n hf)

/-- One name more keeps the names stable when it is the one of its digest and no other's. -/
theorem Stable.concat_ok {name : Text} (h : Stable allowed log)
    (hdistinct : ∀ g m, (g, .ok m) ∈ log → g.source.sha256 ≠ file.source.sha256 →
      Text.lower m ≠ Text.lower name)
    (hsame : ∀ g m, (g, .ok m) ∈ log → g.source.sha256 = file.source.sha256 → m = name)
    (haccepted : fileNameProblem name allowed = none) :
    Stable allowed (log ++ [(file, .ok name)]) := by
  constructor
  · intro f n g m hf hg hne
    rcases mem_ok_concat.mp hf with hold | ⟨rfl, hn⟩
    · rcases mem_ok_concat.mp hg with hg' | ⟨rfl, hm⟩
      · exact h.distinct f n g m hold hg' hne
      · cases hm
        exact hdistinct f n hold hne
    · cases hn
      rcases mem_ok_concat.mp hg with hg' | ⟨rfl, -⟩
      · exact (hdistinct g m hg' hne.symm).symm
      · exact absurd rfl hne
  · intro f n g m hf hg heq
    rcases mem_ok_concat.mp hf with hold | ⟨rfl, hn⟩
    · rcases mem_ok_concat.mp hg with hg' | ⟨rfl, hm⟩
      · exact h.same f n g m hold hg' heq
      · cases hm
        exact hsame f n hold heq
    · cases hn
      rcases mem_ok_concat.mp hg with hg' | ⟨rfl, hm⟩
      · exact (hsame g m hg' heq.symm).symm
      · cases hm
        rfl
  · intro f n hf
    rcases mem_ok_concat.mp hf with hold | ⟨-, hn⟩
    · exact h.accepted f n hold
    · cases hn
      exact haccepted

theorem mem_insert {name sha key s : Text} (hfresh : Text.lower name ∉ names.map (·.1)) :
    (key, s) ∈ names.insert name sha ↔
      (key = Text.lower name ∧ s = sha) ∨ (key, s) ∈ names := by
  have hkeep : names.filter (·.1 ≠ Text.lower name) = names := by
    rw [List.filter_eq_self]
    intro entry hentry
    exact decide_eq_true fun heq => hfresh (List.mem_map.mpr ⟨entry, hentry, heq⟩)
  rw [Names.insert, hkeep, List.mem_cons, Prod.mk.injEq]

/-- A file that has a name gets its key back, which is that name when it has no upper case. -/
theorem settles_known (pathSegments : Url → Option (List Text)) (hrec : Records names log)
    (hstable : Stable allowed log) (hknown : file.source.sha256 ∈ names.map (·.2)) :
    ∃ result, names.name pathSegments file.source allowed = (result, names) ∧
      (Stable allowed (log ++ [(file, result)]) ↔
        Settles pathSegments allowed (names, log) file) ∧
      Records names (log ++ [(file, result)]) := by
  obtain ⟨k, hk, hback⟩ := name_of_known pathSegments allowed hknown
  obtain ⟨g, n, hg, rfl, hsha⟩ := (hrec k _).mp hk
  have hsettles : Settles pathSegments allowed (names, log) file ↔ Text.lower n = n := by
    constructor
    · intro h
      exact h.1 g n hg hsha.symm
    · intro h
      constructor
      · intro g' n' hg' hsha'
        rw [hstable.same g' n' g n hg' hg (hsha'.trans hsha), h]
      · exact fun hcollides => hcollides.1 hknown
  use .ok (Text.lower n), hback
  rw [hsettles]
  constructor
  · constructor
    · intro h
      exact h.same file (Text.lower n) g n (mem_ok_concat.mpr (Or.inr ⟨rfl, rfl⟩))
        (List.mem_append_left _ hg) hsha
    · intro h
      rw [h]
      apply hstable.concat_ok
      · intro g' m hg' hne
        exact hstable.distinct g' m g n hg' hg (hsha ▸ hne)
      · intro g' m hg' heq
        exact hstable.same g' m g n hg' hg (heq.trans hsha)
      · exact hstable.accepted g n hg
  · intro k s
    rw [hrec k s]
    constructor
    · rintro ⟨f, m, hf, hkey, hs⟩
      exact ⟨f, m, List.mem_append_left _ hf, hkey, hs⟩
    · rintro ⟨f, m, hf, hkey, hs⟩
      rcases mem_ok_concat.mp hf with hold | ⟨rfl, hm⟩
      · exact ⟨f, m, hold, hkey, hs⟩
      · cases hm
        exact ⟨g, n, hg, by rw [hkey, Text.lower_lower], hs.trans hsha⟩

/-- A name that no other file has is recorded, and keeps the names stable. -/
theorem stable_fresh (hrec : Records names log) (hstable : Stable allowed log) {name : Text}
    (hfirst : ∀ g n, (g, .ok n) ∈ log → g.source.sha256 ≠ file.source.sha256)
    (hproblem : fileNameProblem name allowed = none) :
    (Stable allowed (log ++ [(file, .ok name)]) ↔ Text.lower name ∉ names.map (·.1)) ∧
      (Text.lower name ∉ names.map (·.1) →
        Records (names.insert name file.source.sha256) (log ++ [(file, .ok name)])) := by
  constructor
  · constructor
    · intro h htaken
      obtain ⟨g, n, hg, hlower⟩ := (hrec.taken _).mp htaken
      exact h.distinct g n file _ (List.mem_append_left _ hg)
        (mem_ok_concat.mpr (Or.inr ⟨rfl, rfl⟩)) (hfirst g n hg) hlower
    · intro hfree
      apply hstable.concat_ok
      · intro g m hg _ heq
        exact hfree ((hrec.taken _).mpr ⟨g, m, hg, heq⟩)
      · exact fun g m hg heq => absurd heq (hfirst g m hg)
      · exact hproblem
  · intro hfree k s
    rw [mem_insert hfree, hrec k s]
    constructor
    · rintro (⟨hk, hs⟩ | ⟨f, n, hf, hk, hs⟩)
      · exact ⟨file, _, mem_ok_concat.mpr (Or.inr ⟨rfl, rfl⟩), hk, hs⟩
      · exact ⟨f, n, List.mem_append_left _ hf, hk, hs⟩
    · rintro ⟨f, n, hf, hk, hs⟩
      rcases mem_ok_concat.mp hf with hold | ⟨rfl, hn⟩
      · exact Or.inr ⟨f, n, hold, hk, hs⟩
      · cases hn
        exact Or.inl ⟨hk, hs⟩

/-- One file asked for keeps the names stable just when it settles, and then the names are those
of the log again. -/
theorem settles_iff (hrec : Records names log) (hstable : Stable allowed log)
    (hname : names.name pathSegments file.source allowed = (result, names')) :
    (Stable allowed (log ++ [(file, result)]) ↔
        Settles pathSegments allowed (names, log) file) ∧
      (Settles pathSegments allowed (names, log) file →
        Records names' (log ++ [(file, result)])) := by
  by_cases hknown : file.source.sha256 ∈ names.map (·.2)
  · obtain ⟨back, hback, hiff, hrec'⟩ :=
      settles_known pathSegments hrec hstable hknown
    rw [hback] at hname
    cases hname
    exact ⟨hiff, fun _ => hrec'⟩
  · have hfirst : ∀ g n, (g, .ok n) ∈ log → g.source.sha256 ≠ file.source.sha256 := by
      intro g n hg heq
      exact hknown ((hrec.known _).mpr ⟨g, n, hg, heq⟩)
    have hsettles : Settles pathSegments allowed (names, log) file ↔
        ¬Collides pathSegments allowed names file.source := by
      constructor
      · exact And.right
      · exact fun h => ⟨fun g n hg heq => absurd heq (hfirst g n hg), h⟩
    rw [hsettles]
    obtain ⟨hext, hproblem, hgiven⟩ | ⟨hrefused, why, hgiven⟩ :=
      name_of_new pathSegments allowed hknown rfl
    · rw [hgiven] at hname
      cases hname
      -- the name is another file's just when it is the one behind the digest, and that one is
      have hcollides : Collides pathSegments allowed names file.source ↔
          Text.lower (if Text.lower (pick pathSegments file.source) ∈ names.map (·.1) then
            prefixedName pathSegments file.source else pick pathSegments file.source) ∈
              names.map (·.1) := by
        split_ifs with htaken
        · rw [if_pos htaken] at hproblem
          constructor
          · exact fun h => h.2.2.2.2
          · exact fun h => ⟨hknown, hext, htaken, hproblem, h⟩
        · constructor
          · exact fun h => absurd h.2.2.1 htaken
          · exact fun h => absurd h htaken
      rw [hcollides]
      exact stable_fresh hrec hstable hfirst hproblem
    · rw [hgiven] at hname
      cases hname
      have hnot : ¬Collides pathSegments allowed names file.source := by
        rintro ⟨-, hext, htaken, hproblem, -⟩
        apply hrefused
        rw [if_pos htaken]
        exact ⟨hext, hproblem⟩
      constructor
      · exact ⟨fun _ => hnot, fun _ => hstable.concat_error⟩
      · intro _ k s
        rw [hrec k s]
        simp

theorem attachAll_concat_ok {name : Text} : attachAll (log ++ [(file, .ok name)]) =
    attach (attachAll log) ⟨name, file.content, file.content.length, file.source.sha256⟩ := by
  simp [attachAll, List.foldl_append]

theorem attachAll_concat_error {why : String} :
    attachAll (log ++ [(file, .error why)]) = attachAll log := by
  simp [attachAll, List.foldl_append]

/-- What is attached has the names of the log, each once. -/
theorem attachAll_names (log : Log) :
    (∀ a ∈ attachAll log, ∃ f, (f, .ok a.name) ∈ log ∧ a.sha256 = f.source.sha256) ∧
      (∀ f n, (f, .ok n) ∈ log → ∃ a ∈ attachAll log, a.name = n) ∧
        ((attachAll log).map (·.name)).Nodup := by
  induction log using List.reverseRecOn with
  | nil => simp [attachAll]
  | append_singleton log entry ih =>
    obtain ⟨file, result⟩ := entry
    obtain ⟨hfrom, hall, hnodup⟩ := ih
    cases result with
    | error why =>
      rw [attachAll_concat_error]
      simpa using ⟨hfrom, hall, hnodup⟩
    | ok name =>
      rw [attachAll_concat_ok, attach]
      split_ifs with hany
      · obtain ⟨a, ha, heq⟩ := List.any_eq_true.mp hany
        constructor
        · intro b hb
          obtain ⟨f, hf, hsha⟩ := hfrom b hb
          exact ⟨f, List.mem_append_left _ hf, hsha⟩
        · constructor
          · intro f n hf
            rcases mem_ok_concat.mp hf with hold | ⟨-, hn⟩
            · exact hall f n hold
            · cases hn
              exact ⟨a, ha, of_decide_eq_true heq⟩
          · exact hnodup
      · constructor
        · intro b hb
          rcases List.mem_append.mp hb with hb | hb
          · obtain ⟨f, hf, hsha⟩ := hfrom b hb
            exact ⟨f, List.mem_append_left _ hf, hsha⟩
          · rw [List.mem_singleton.mp hb]
            exact ⟨file, mem_ok_concat.mpr (Or.inr ⟨rfl, rfl⟩), rfl⟩
        · constructor
          · intro f n hf
            rcases mem_ok_concat.mp hf with hold | ⟨-, hn⟩
            · obtain ⟨a, ha, heq⟩ := hall f n hold
              exact ⟨a, List.mem_append_left _ ha, heq⟩
            · cases hn
              exact ⟨_, List.mem_append_right _ List.mem_cons_self, rfl⟩
          · rw [List.map_append, List.nodup_append]
            simp only [hnodup, List.map_cons, List.map_nil, List.nodup_cons, List.not_mem_nil,
              not_false_eq_true, List.nodup_nil, and_self, true_and, List.mem_map,
              List.mem_singleton, forall_eq]
            rintro n ⟨a, ha, rfl⟩ heq
            exact hany (List.any_eq_true.mpr ⟨a, ha, decide_eq_true heq⟩)

theorem Stable.attachedOnce (h : Stable allowed log) : AttachedOnce log := by
  obtain ⟨hfrom, hall, hnodup⟩ := attachAll_names log
  constructor
  · intro f n hf
    obtain ⟨a, ha, rfl⟩ := hall f n hf
    obtain ⟨g, hg, hsha⟩ := hfrom a ha
    use a, ha, rfl
    by_contra hne
    exact h.distinct g a.name f a.name hg hf (hsha ▸ hne) rfl
  · rw [List.nodup_iff_pairwise_ne, List.pairwise_map] at hnodup ⊢
    apply hnodup.imp_of_mem
    intro a b ha hb hname hsha
    obtain ⟨f, hf, hfa⟩ := hfrom a ha
    obtain ⟨g, hg, hgb⟩ := hfrom b hb
    exact hname (h.same f a.name g b.name hf hg (by rw [← hfa, ← hgb, hsha]))

theorem nameAll_concat (files : List Asked) (file : Asked) :
    nameAll pathSegments allowed (files ++ [file]) =
      (nameAll pathSegments allowed files).bind (nameNext pathSegments allowed · file) := by
  rw [nameAll, List.foldlM_append]
  simp only [List.foldlM_cons, List.foldlM_nil, bind_pure]
  rfl

variable (pathSegments allowed)

/-- A run never panics, and its names are stable just when each of its files settles. -/
theorem nameAll_spec (files : List Asked) :
    ∃ names log, nameAll pathSegments allowed files = some (names, log) ∧ log.map (·.1) = files ∧
      (Stable allowed log ↔ ∀ before file after, files = before ++ file :: after →
        ∀ state ∈ nameAll pathSegments allowed before,
          Settles pathSegments allowed state file) ∧
      (Stable allowed log → Records names log) := by
  induction files using List.reverseRecOn with
  | nil =>
    use [], [], rfl, rfl
    constructor
    · constructor
      · intro _ before file after h
        simp at h
      · intro _
        constructor <;> simp
    · intro _ k s
      simp
  | append_singleton files file ih =>
    obtain ⟨names, log, hrun, hfiles, hiff, hrec⟩ := ih
    obtain ⟨⟨result, names'⟩, hname⟩ : ∃ named, names.name pathSegments file.source allowed = named :=
      ⟨_, rfl⟩
    have hnext : nameAll pathSegments allowed (files ++ [file]) =
        some (names', log ++ [(file, result)]) := by
      rw [nameAll_concat, hrun, Option.bind_some, nameNext, Names.nameSliced_eq, hname]
      rfl
    have hsplit : (∀ before f after, files ++ [file] = before ++ f :: after →
        ∀ state ∈ nameAll pathSegments allowed before, Settles pathSegments allowed state f) ↔
          Stable allowed log ∧ Settles pathSegments allowed (names, log) file := by
      rw [hiff]
      constructor
      · intro h
        constructor
        · intro before f after heq
          exact h before f (after ++ [file]) (by rw [heq]; simp)
        · exact h files file [] rfl (names, log) hrun
      · rintro ⟨hinit, hlast⟩ before f after heq state hstate
        obtain rfl | ⟨init, last, rfl⟩ := List.eq_nil_or_concat after
        · obtain ⟨rfl, hf⟩ := List.append_inj' heq rfl
          cases hf
          rw [hrun] at hstate
          cases hstate
          exact hlast
        · rw [List.concat_eq_append, ← List.cons_append, ← List.append_assoc] at heq
          obtain ⟨hinit', -⟩ := List.append_inj' heq rfl
          exact hinit before f init hinit' state hstate
    use names', log ++ [(file, result)], hnext, by simp [hfiles]
    rw [hsplit]
    constructor
    · constructor
      · intro h
        have hold := h.of_concat
        exact ⟨hold, (settles_iff (hrec hold) hold hname).1.mp h⟩
      · rintro ⟨hold, hsettles⟩
        exact (settles_iff (hrec hold) hold hname).1.mpr hsettles
    · intro h
      have hold := h.of_concat
      have hstep := settles_iff (hrec hold) hold hname
      exact hstep.2 (hstep.1.mp h)

/-- The names of the files asked for are stable, and each file is attached once, just when each
one settles: a file asked for again has a name without upper case, and no file is given, in the
place of a name that another one has, a name that another one has too. -/
theorem names_stable_iff (files : List Asked) :
    ∃ names log, nameAll pathSegments allowed files = some (names, log) ∧ log.map (·.1) = files ∧
      (Stable allowed log ∧ AttachedOnce log ↔
        ∀ before file after, files = before ++ file :: after →
          ∀ state ∈ nameAll pathSegments allowed before,
            Settles pathSegments allowed state file) := by
  obtain ⟨names, log, hrun, hfiles, hiff, -⟩ :=
    nameAll_spec pathSegments allowed files
  use names, log, hrun, hfiles
  rw [← hiff]
  exact ⟨And.left, fun h => ⟨h, h.attachedOnce⟩⟩

end Runs

/-! A sample: executables from one host, each with a digest of one digit. -/

def sampleSegments (url : Url) : Option (List Text) := some ((url.splitOn '/').drop 3)

def sampleAsked (name : String) (digit : Char)
    (h : Text.isAscii (List.replicate 64 digit) = true) : Asked where
  source := ⟨"https://example.com/".toList ++ name.toList, none, none, none, .executable,
    List.replicate 64 digit, "app-1.0.0".toList⟩
  content := utf8 [digit]
  sha256_ascii := h
  fileType_ascii := by simp

/-- A file that two calls share gets its name back in lower case, and is attached twice. And a file
whose name is given already gets one behind its digest that another file has. -/
theorem names_unstable :
    (∃ names log, nameAll sampleSegments ["exe".toList]
        [sampleAsked "Setup.exe" 'a' rfl, sampleAsked "Setup.exe" 'a' rfl] = some (names, log) ∧
      ¬Stable ["exe".toList] log ∧ ¬AttachedOnce log) ∧
    ∃ names log, nameAll sampleSegments ["exe".toList]
        [sampleAsked "bbbbbbbb-setup.exe" 'c' rfl, sampleAsked "setup.exe" 'a' rfl,
          sampleAsked "setup.exe" 'b' rfl] = some (names, log) ∧
      ¬Stable ["exe".toList] log := by
  constructor
  · use [("setup.exe".toList, List.replicate 64 'a')],
      [(sampleAsked "Setup.exe" 'a' rfl, .ok "Setup.exe".toList),
        (sampleAsked "Setup.exe" 'a' rfl, .ok "setup.exe".toList)], rfl
    have hnames : "Setup.exe".toList ≠ "setup.exe".toList := by decide
    constructor
    · intro h
      exact hnames (h.same (sampleAsked "Setup.exe" 'a' rfl) _ (sampleAsked "Setup.exe" 'a' rfl) _
        List.mem_cons_self (List.mem_cons_of_mem _ List.mem_cons_self) rfl)
    · intro h
      have htwice : (List.replicate 2 (List.replicate 64 'a')).Nodup := h.once
      exact absurd htwice (by decide)
  · use [("bbbbbbbb-setup.exe".toList, List.replicate 64 'b'),
        ("setup.exe".toList, List.replicate 64 'a')],
      [(sampleAsked "bbbbbbbb-setup.exe" 'c' rfl, .ok "bbbbbbbb-setup.exe".toList),
        (sampleAsked "setup.exe" 'a' rfl, .ok "setup.exe".toList),
        (sampleAsked "setup.exe" 'b' rfl, .ok "bbbbbbbb-setup.exe".toList)], rfl
    intro h
    have hdigests : (List.replicate 64 'c' : Text) ≠ List.replicate 64 'b' := by decide
    exact h.distinct (sampleAsked "bbbbbbbb-setup.exe" 'c' rfl) _ (sampleAsked "setup.exe" 'b' rfl) _
      List.mem_cons_self (List.mem_cons_of_mem _ (List.mem_cons_of_mem _ List.mem_cons_self))
      hdigests rfl

end YaNuget.Internalize
