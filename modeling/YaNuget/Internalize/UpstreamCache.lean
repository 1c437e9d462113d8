import YaNuget.Internalize.Upstream
import YaNuget.Packages.ManifestDocument
import YaNuget.Versions.Order

/-!
# What the upstream cache serves

A file enters the cache only as the package that was asked for, but it leaves
the cache by its name alone. So what is served is right exactly when no name
stands for two packages.
-/
namespace YaNuget.Internalize

open Versions Versions.NuGetVersion

section Packages

variable (L : Libraries)

/-- The file has the hash that the feed states, if it states one. -/
def Matches (info : PackageInfo) (file : Bytes) : Prop :=
  ∀ h ∈ info.hash, digestFor h.algorithm (L.sha512 file) (L.sha256 file) = h.digest

/-- The manifest of the file names the id and the version. -/
def IsOf (info : PackageInfo) (file : Bytes) : Prop :=
  ∃ xml nuspec version, L.readArchive file = .ok xml ∧ Manifest.parseNuspec xml = .ok nuspec ∧
    Versions.NuGetVersion.parse nuspec.version = .ok version ∧
    Text.lower nuspec.id = Text.lower info.id ∧ version.cmp info.version = .eq

/-- The file is what the fetch asks for. -/
structure IsPackage (f : Fetch) (file : Bytes) : Prop where
  fits : file.length ≤ f.upstream.maxPackageBytes
  size : ∀ n ∈ f.info.size, n = file.length
  hash : Matches L f.info file
  names : IsOf L f.info file

/-- Both are one version of one package. -/
def PackageInfo.Same (a b : PackageInfo) : Prop :=
  Text.lower a.id = Text.lower b.id ∧ a.version.cmp b.version = .eq

instance (a b : PackageInfo) : Decidable (a.Same b) := inferInstanceAs (Decidable (_ ∧ _))

/-- What a fetch returns is a file with the hash that is stated for it and with a manifest that
names the package. -/
def Sound (f : Fetch) (r : Dir × Except UpstreamError CachedPackage) : Prop :=
  ∀ p, r.2 = .ok p → ∃ file, r.1 p.path = some file ∧ Matches L f.info file ∧ IsOf L f.info file

/-- Whatever the upstream answers, the fetches return the packages that they ask for. -/
def Always (d : Dir) (fetched : List Fetch) : Prop :=
  ∀ steps : List (Fetch × Meets), steps.map Prod.fst = fetched →
    ∀ s ∈ fetches L d steps, Sound L s.1 s.2

end Packages

section Identity

variable {L : Libraries} {a b : PackageInfo} {file : Bytes}

/-- A file of one package is one of another exactly when they are the same. -/
theorem IsOf.iff_same (h : IsOf L a file) : IsOf L b file ↔ a.Same b := by
  obtain ⟨xml, nuspec, version, hxml, hnuspec, hversion, hid, hcmp⟩ := h
  constructor
  · rintro ⟨xml', nuspec', version', hxml', hnuspec', hversion', hid', hcmp'⟩
    rw [hxml] at hxml'
    cases hxml'
    rw [hnuspec] at hnuspec'
    cases hnuspec'
    rw [hversion] at hversion'
    cases hversion'
    rw [cmp_eq_eq] at hcmp hcmp'
    refine ⟨hid.symm.trans hid', cmp_eq_eq.mpr ?_⟩
    exact ⟨hcmp.1.symm.trans hcmp'.1, hcmp.2.symm.trans hcmp'.2⟩
  · rintro ⟨hid', hcmp'⟩
    refine ⟨xml, nuspec, version, hxml, hnuspec, hversion, hid.trans hid', ?_⟩
    rw [cmp_eq_eq] at hcmp hcmp' ⊢
    exact ⟨hcmp.1.trans hcmp'.1, hcmp.2.trans hcmp'.2⟩

end Identity

section FileNames

variable {L : Libraries} {f g : Fetch}

theorem head?_cacheName : (f.cacheName L).head? ≠ some '.' := by
  unfold Fetch.cacheName
  cases f.info.hash with
  | none => simp
  | some h =>
    obtain ⟨algorithm, digest⟩ := h
    cases algorithm <;> simp [HashAlgorithm.asStr]

theorem hash_eq_of_cacheName (h : f.cacheName L = g.cacheName L) : f.info.hash = g.info.hash := by
  unfold Fetch.cacheName at h
  cases hf : f.info.hash with
  | none =>
    cases hg : g.info.hash with
    | none => rfl
    | some hash =>
      rw [hf, hg] at h
      cases halgorithm : hash.algorithm <;> simp [HashAlgorithm.asStr, halgorithm] at h
  | some hash =>
    cases hg : g.info.hash with
    | none =>
      rw [hf, hg] at h
      cases halgorithm : hash.algorithm <;> simp [HashAlgorithm.asStr, halgorithm] at h
    | some hash' =>
      obtain ⟨algorithm, digest⟩ := hash
      obtain ⟨algorithm', digest'⟩ := hash'
      rw [hf, hg] at h
      cases algorithm <;> cases algorithm' <;> simp [HashAlgorithm.asStr] at h
      all_goals rw [hex_injective h]

end FileNames

section Downloads

variable {L : Libraries} {f : Fetch} {e : Meets} {file : Bytes}

theorem length_of_receive {n : ℕ} {written : Bytes} {chunks : List (Except String Bytes)}
    (h : receive f e n written chunks = .ok file)
    (hfits : written.length ≤ f.upstream.maxPackageBytes) :
    file.length ≤ f.upstream.maxPackageBytes := by
  induction chunks generalizing n written with
  | nil =>
    rw [receive, Except.ok.injEq] at h
    exact h ▸ hfits
  | cons item rest ih =>
    cases item with
    | error err => simp [receive] at h
    | ok chunk =>
      rw [receive] at h
      split at h
      · simp at h
      next hlimit =>
      split at h
      · simp at h
      · apply ih h
        rw [List.length_append]
        omega

theorem of_verify {p : CachedPackage} (h : verify L f e file = .ok p) :
    (∀ n ∈ f.info.size, n = file.length) ∧ Matches L f.info file := by
  unfold verify at h
  split at h
  · simp at h
  next hsize =>
  simp only at h
  split at h
  · simp at h
  next hhash =>
  constructor
  · intro n hn
    rw [Option.mem_def] at hn
    simpa [hn, Option.filter] using hsize
  · intro hash hhash'
    rw [Option.mem_def] at hhash'
    simpa [hhash', Option.filter] using hhash

theorem of_download {p : CachedPackage} (h : download L f e = .ok (file, p)) :
    file.length ≤ f.upstream.maxPackageBytes ∧ (∀ n ∈ f.info.size, n = file.length) ∧
      Matches L f.info file := by
  unfold download at h
  split at h
  · simp at h
  split at h
  · simp at h
  split at h
  · simp at h
  split at h
  · simp at h
  split at h
  · simp at h
  next body hbody =>
  split at h
  · simp at h
  split at h
  · simp at h
  next hverify =>
  simp only [Except.ok.injEq, Prod.mk.injEq] at h
  obtain ⟨rfl, rfl⟩ := h
  exact ⟨length_of_receive hbody (Nat.zero_le _), of_verify hverify⟩

theorem of_checkIdentity (h : checkIdentity L f e file = .ok ()) : IsOf L f.info file := by
  unfold checkIdentity at h
  simp only at h
  split at h
  · simp at h
  split at h
  · simp at h
  next xml hxml =>
  split at h
  · simp at h
  next nuspec hnuspec =>
  split at h
  · simp at h
  next version hversion =>
  split at h
  · simp at h
  next hsame =>
  rw [not_or, not_not, not_not] at hsame
  exact ⟨xml, nuspec, version, hxml, hnuspec, hversion, hsame⟩

end Downloads

/-- What a fetch can do, of a directory. -/
inductive Fetched (L : Libraries) (f : Fetch) (d : Dir) :
    Dir × Except UpstreamError CachedPackage → Prop where
  /-- Nothing is stored but a part, and the cached file may be removed. -/
  | failed {d' : Dir} {err : UpstreamError}
      (kept : ∀ name file, d' name = some file → name.head? = some '.' ∨ d name = some file) :
      Fetched L f d (d', .error err)
  | cached {p : CachedPackage} {file : Bytes} (path : p.path = f.cacheName L)
      (present : d p.path = some file) (hash : Matches L f.info file) : Fetched L f d (d, .ok p)
  | stored {d' : Dir} {p : CachedPackage} {file : Bytes} (path : p.path = f.cacheName L)
      (present : d' p.path = some file) (isPackage : IsPackage L f file)
      (kept : ∀ name, name ≠ p.path → ∀ file', d' name = some file' → d name = some file') :
      Fetched L f d (d', .ok p)

section Fetching

variable {L : Libraries} {f : Fetch} {e : Meets} {d : Dir}

theorem update_part {pid parts : ℕ} {v : Option Bytes} {name : Text} {file : Bytes}
    (h : Function.update d (f.partName L pid parts) v name = some file) :
    name.head? = some '.' ∨ d name = some file := by
  by_cases hname : name = f.partName L pid parts
  · rw [hname]
    exact Or.inl rfl
  · rw [Function.update_of_ne hname] at h
    exact Or.inr h

theorem removePart_kept {name : Text} {file : Bytes} (h : removePart L f e d name = some file) :
    name.head? = some '.' ∨ d name = some file := by
  unfold removePart at h
  split at h
  · exact Or.inr h
  · exact update_part h

theorem fetchNew_cases : Fetched L f d (fetchNew L f e d) := by
  unfold fetchNew
  simp only
  split
  · exact .failed fun name file h => removePart_kept h
  · refine .failed fun name file h => ?_
    exact (removePart_kept h).elim Or.inl update_part
  next file p hdownload =>
  split
  · refine .failed fun name file h => ?_
    exact (removePart_kept h).elim Or.inl update_part
  next hidentity =>
  split
  · exact .failed fun name file h => update_part h
  · obtain ⟨hfits, hsize, hhash⟩ := of_download hdownload
    refine .stored rfl (Function.update_self ..)
      ⟨hfits, hsize, hhash, of_checkIdentity hidentity⟩ fun name hname file' h => ?_
    rw [Function.update_of_ne hname] at h
    by_cases hpart : name = f.partName L e.pid e.parts
    · simp [hpart] at h
    · rwa [Function.update_of_ne hpart, Function.update_of_ne hpart] at h

theorem hashFile_eq {hash : PackageHash} (h : f.info.hash = some hash) (file : Bytes) :
    let digests := hashFile L file (f.info.hash.map (·.algorithm))
    digestFor hash.algorithm digests.1 digests.2 =
      digestFor hash.algorithm (L.sha512 file) (L.sha256 file) := by
  rw [h]
  cases halgorithm : hash.algorithm <;> simp [hashFile, digestFor, halgorithm]

theorem any_hash_eq_false {file : Bytes} :
    (f.info.hash.any fun h =>
      digestFor h.algorithm (hashFile L file (f.info.hash.map (·.algorithm))).1
        (hashFile L file (f.info.hash.map (·.algorithm))).2 ≠ h.digest) = false ↔
      Matches L f.info file := by
  unfold Matches
  cases h : f.info.hash with
  | none => simp
  | some hash =>
    have heq := hashFile_eq (L := L) h file
    rw [h] at heq
    simp only [Option.map_some] at heq
    simp [heq]

theorem fetch_cases : Fetched L f d (fetch L f e d) := by
  unfold fetch
  split
  · exact .failed fun name file h => Or.inr h
  split
  · exact fetchNew_cases
  next file hfile =>
  have hcached : d (f.cacheName L) = some file := by
    split at hfile
    · exact hfile
    · simp at hfile
  split
  · exact .failed fun name file h => Or.inr h
  simp only
  split
  · split
    · exact .failed fun name file h => Or.inr h
    · have hremoved (name : Text) (file' : Bytes)
          (h : Function.update d (f.cacheName L) none name = some file') : d name = some file' := by
        by_cases hname : name = f.cacheName L
        · simp [hname] at h
        · rwa [Function.update_of_ne hname] at h
      generalize hr : fetchNew L f e (Function.update d (f.cacheName L) none) = r
      have hnew : Fetched L f (Function.update d (f.cacheName L) none) r := hr ▸ fetchNew_cases
      cases hnew with
      | failed kept =>
        exact .failed fun name file' h => (kept name file' h).imp_right (hremoved name file')
      | cached path present hash =>
        rw [path, Function.update_self] at present
        simp at present
      | stored path present isPackage kept =>
        exact .stored path present isPackage
          fun name hname file' h => hremoved name file' (kept name hname file' h)
  next hmatches =>
    exact .cached rfl hcached (any_hash_eq_false.mp (by simpa using hmatches))

end Fetching

/-- Fetches of one name, the first of which can succeed, ask for one package. -/
def Agree (L : Libraries) (a b : Fetch) : Prop :=
  a.cacheName L = b.cacheName L → (∃ file, IsPackage L a file) → a.info.Same b.info

/-- What is in the cache was asked for under its name. -/
def Holds (L : Libraries) (earlier : List Fetch) (d : Dir) : Prop :=
  ∀ name file, d name = some file →
    name.head? = some '.' ∨ ∃ a ∈ earlier, a.cacheName L = name ∧ IsPackage L a file

section Runs

variable {L : Libraries} {f : Fetch} {e : Meets} {d : Dir} {earlier : List Fetch}
  {r : Dir × Except UpstreamError CachedPackage}

theorem Holds.fetched (h : Holds L earlier d) (hr : Fetched L f d r) :
    Holds L (f :: earlier) r.1 := by
  have weaker {name : Text} {file : Bytes} (hfile : d name = some file) : name.head? = some '.' ∨
      ∃ a ∈ f :: earlier, a.cacheName L = name ∧ IsPackage L a file :=
    (h name file hfile).imp_right fun ⟨a, ha, hname⟩ => ⟨a, List.mem_cons_of_mem f ha, hname⟩
  intro name file hfile
  cases hr with
  | failed kept => exact (kept name file hfile).elim Or.inl weaker
  | cached path present hash => exact weaker hfile
  | @stored d' p file' path present isPackage kept =>
    change d' name = some file at hfile
    by_cases hname : name = p.path
    · rw [hname, present, Option.some.injEq] at hfile
      rw [hname, path, ← hfile]
      exact Or.inr ⟨f, List.mem_cons_self, rfl, isPackage⟩
    · exact weaker (kept name hname file hfile)

theorem Holds.sound (h : Holds L earlier d) (hagree : ∀ a ∈ earlier, Agree L a f)
    (hr : Fetched L f d r) : Sound L f r := by
  intro p hp
  cases hr with
  | failed kept => simp at hp
  | @cached p' file path present hash =>
    obtain rfl : p' = p := Except.ok.inj hp
    refine ⟨file, present, hash, ?_⟩
    rcases h _ _ present with hdot | ⟨a, ha, hname, hpackage⟩
    · exact (head?_cacheName (path ▸ hdot)).elim
    · exact hpackage.names.iff_same.mpr (hagree a ha (hname.trans path) ⟨file, hpackage⟩)
  | @stored d' p' file path present isPackage kept =>
    obtain rfl : p' = p := Except.ok.inj hp
    exact ⟨file, present, isPackage.hash, isPackage.names⟩

theorem Holds.fetches {steps : List (Fetch × Meets)} (h : Holds L earlier d)
    (hearlier : ∀ a ∈ earlier, ∀ s ∈ steps, Agree L a s.1)
    (hsteps : (steps.map Prod.fst).Pairwise (Agree L)) :
    ∀ s ∈ fetches L d steps, Sound L s.1 s.2 := by
  induction steps generalizing d earlier with
  | nil => simp [Internalize.fetches]
  | cons s rest ih =>
    rw [List.map_cons, List.pairwise_cons] at hsteps
    simp only [List.forall_mem_cons] at hearlier
    intro s' hs'
    rw [Internalize.fetches, List.mem_cons] at hs'
    rcases hs' with rfl | hs'
    · exact h.sound (fun a ha => (hearlier a ha).1) fetch_cases
    · refine ih (h.fetched fetch_cases) ?_ hsteps.2 s' hs'
      intro a ha s'' hs''
      rcases List.mem_cons.mp ha with rfl | ha
      · exact hsteps.1 s''.1 (List.mem_map_of_mem hs'')
      · exact (hearlier a ha).2 s'' hs''

end Runs

section Answers

variable {L : Libraries} {f g : Fetch} {d : Dir} {file : Bytes}

/-- The directory cannot be made. -/
def refused : Meets := ⟨0, 0, true, fun _ => some "permission denied", .error (.http "")⟩

def answering (file : Bytes) : Meets :=
  ⟨0, 0, true, fun _ => none, .ok ⟨200, "200 OK", none, [.ok file]⟩⟩

theorem fetch_answering (h : IsPackage L f file) (hd : d (f.cacheName L) = none) :
    (fetch L f (answering file) d).1 (f.cacheName L) = some file := by
  have hverify : verify L f (answering file) file =
      .ok ⟨f.partName L 0 0, file.length, hex (L.sha512 file), f.info.hash.isSome⟩ := by
    have hsize : f.info.size.filter (· ≠ file.length) = none := by
      rw [Option.filter_eq_none_iff]
      intro n hn
      simpa using h.size n hn
    have hhash : f.info.hash.filter (fun hash => digestFor hash.algorithm (L.sha512 file)
        (L.sha256 file) ≠ hash.digest) = none := by
      rw [Option.filter_eq_none_iff]
      intro hash hhash
      simpa using h.hash hash hhash
    simp only [verify, hsize, hhash]
    rfl
  have hdownload : download L f (answering file) = .ok (file,
      ⟨f.partName L 0 0, file.length, hex (L.sha512 file), f.info.hash.isSome⟩) := by
    have hreceive : receive f (answering file) 0 [] [.ok file] = .ok file := by
      simp [receive, answering, Nat.not_lt.mpr h.fits]
    have hok : okStatus ⟨200, "200 OK", none, [.ok file]⟩ f.info.what = .ok () := rfl
    simp only [download, answering] at hreceive hverify ⊢
    simp [hok, hreceive, hverify]
  have hidentity : checkIdentity L f (answering file) file = .ok () := by
    obtain ⟨xml, nuspec, version, hxml, hnuspec, hversion, hid, hcmp⟩ := h.names
    simp [checkIdentity, answering, hxml, hnuspec, hversion, hid, hcmp]
  have hnew : fetch L f (answering file) d = fetchNew L f (answering file) d := by
    simp [fetch, answering, hd]
  rw [hnew]
  simp only [fetchNew, hdownload, hidentity]
  exact Function.update_self ..

theorem fetch_cached {answer : Bytes} (hd : d (f.cacheName L) = some file)
    (h : Matches L f.info file) : fetch L f (answering answer) d = (d, .ok ⟨f.cacheName L, file.length, hex (L.sha512 file),
      f.info.hash.isSome⟩) := by
  have hmatches := any_hash_eq_false.mpr h
  simp only [fetch, answering, hd, if_true] at hmatches ⊢
  rw [if_neg (by simpa using hmatches)]
  rfl

theorem Always.after {fetched : List Fetch} (h : Always L d (f :: fetched)) (e : Meets) :
    Always L (fetch L f e d).1 fetched := by
  rintro steps rfl s hs
  apply h ((f, e) :: steps) rfl
  rw [fetches]
  exact List.mem_cons_of_mem _ hs

theorem Always.tail {fetched : List Fetch} (h : Always L d (f :: fetched)) : Always L d fetched :=
  h.after refused

theorem Always.names {fetched : List Fetch} (h : Always L d fetched) (hg : g ∈ fetched)
    (hd : d (g.cacheName L) = some file) (hmatches : Matches L g.info file) :
    IsOf L g.info file := by
  induction fetched with
  | nil => simp at hg
  | cons f rest ih =>
    rcases List.mem_cons.mp hg with rfl | hg
    · have hsound := h ((g, answering []) :: rest.map (·, refused)) (by simp [Function.comp_def])
        (g, fetch L g (answering []) d) List.mem_cons_self
      rw [fetch_cached hd hmatches] at hsound
      obtain ⟨file', hfile', -, hnames⟩ := hsound _ rfl
      change d (g.cacheName L) = some file' at hfile'
      rw [hd, Option.some.injEq] at hfile'
      exact hfile' ▸ hnames
    · exact ih h.tail hg

end Answers

/-- A sequence of fetches returns the packages it asks for, whatever the upstream answers, if and
only if the fetches of one name agree on the package. -/
theorem fetches_sound_iff (L : Libraries) (fetched : List Fetch) :
    Always L (fun _ => none) fetched ↔ fetched.Pairwise (Agree L) := by
  constructor
  · intro h
    induction fetched with
    | nil => exact List.Pairwise.nil
    | cons f rest ih =>
      refine List.pairwise_cons.mpr ⟨?_, ih h.tail⟩
      rintro g hg hname ⟨file, hpackage⟩
      have hfile := fetch_answering (d := fun _ => none) hpackage rfl
      have hmatches : Matches L g.info file := by
        unfold Matches
        rw [← hash_eq_of_cacheName hname]
        exact hpackage.hash
      have hnames := (h.after (answering file)).names hg (hname ▸ hfile) hmatches
      exact hpackage.names.iff_same.mp hnames
  · rintro h steps rfl
    have hempty : Holds L [] fun _ => none := by
      intro name file hfile
      simp at hfile
    exact hempty.fetches (by simp) h

/-! A sample: the archive of a package without files, with its digests. -/

@[irreducible]
def samplePackage : Bytes :=
  [80, 75, 3, 4, 20, 0, 0, 0, 0, 0, 0, 0, 33, 0, 249, 29, 46, 153, 72, 0, 0, 0, 72, 0, 0, 0, 8, 0,
    0, 0, 65, 46, 110, 117, 115, 112, 101, 99] ++
  utf8 "<package><metadata><id>A</id><version>1.0</version></metadata></package>".toList ++
  [80, 75, 1, 2, 20, 0, 20, 0, 0, 0, 0, 0, 0, 0, 33, 0, 249, 29, 46, 153, 72, 0, 0, 0, 72, 0, 0,
    0, 8, 0, 0, 0, 0, 0, 0, 0, 0, 0, 0, 0, 128, 1, 0, 0, 0, 0, 65, 46, 110, 117, 115, 112, 101,
    99, 80, 75, 5, 6, 0, 0, 0, 0, 1, 0, 1, 0, 54, 0, 0, 0, 110, 0, 0, 0, 0, 0]

@[irreducible]
def sampleSha256 : Bytes :=
  [196, 122, 187, 168, 187, 66, 188, 105, 141, 201, 183, 211, 147, 63, 78, 60, 232, 113, 130, 116,
    237, 133, 234, 113, 101, 110, 246, 153, 8, 59, 174, 177]

@[irreducible]
def sampleSha512 : Bytes :=
  [11, 129, 168, 56, 196, 126, 66, 129, 97, 24, 177, 217, 174, 20, 148, 24, 218, 36, 128, 131, 69,
    37, 208, 231, 139, 219, 104, 247, 161, 85, 14, 20, 8, 54, 86, 226, 172, 92, 24, 31, 252, 183,
    43, 46, 253, 101, 249, 214, 26, 227, 225, 223, 179, 212, 194, 101, 3, 93, 229, 162, 85, 245,
    120, 70]

def sampleLibraries : Libraries where
  sha256 bytes := if bytes = samplePackage then sampleSha256 else []
  sha512 bytes := if bytes = samplePackage then sampleSha512 else []
  readArchive bytes :=
    if bytes = samplePackage then .ok Manifest.sampleXml else .error "package contains no .nuspec"

def sampleUpstream : Upstream where
  source := "https://community.chocolatey.org/api/v2/".toList
  maxPackageBytes := 1000

/-- The feed states one hash for the package and for another one. -/
def sampleFetch (id : Char) : Fetch where
  upstream := sampleUpstream
  info := ⟨[id], ⟨1, 0, 0, 0, [], none, ['1', '.', '0']⟩, true, some ⟨.sha512, sampleSha512⟩, none⟩

/-- The package is served as another one, whose feed states its hash. -/
theorem other_package_served :
    ¬Always sampleLibraries (fun _ => none) [sampleFetch 'A', sampleFetch 'B'] := by
  intro h
  have hdigest : sampleLibraries.sha512 samplePackage = sampleSha512 := if_pos rfl
  have harchive : sampleLibraries.readArchive samplePackage = .ok Manifest.sampleXml := if_pos rfl
  have hmatches (id : Char) : Matches sampleLibraries (sampleFetch id).info samplePackage := by
    intro hash hhash
    unfold sampleFetch at hhash
    cases hhash
    exact hdigest
  have hpackage : IsPackage sampleLibraries (sampleFetch 'A') samplePackage := by
    have hparsed : Manifest.parseNuspec Manifest.sampleXml = .ok Manifest.sampleNuspec := by
      decide +kernel
    have hversion : Versions.NuGetVersion.parse Manifest.sampleNuspec.version =
        .ok (sampleFetch 'A').info.version := by
      decide +kernel
    have hsize (n : ℕ) (hn : n ∈ (sampleFetch 'A').info.size) : n = samplePackage.length := by
      unfold sampleFetch at hn
      cases hn
    exact ⟨by decide +kernel, hsize, hmatches 'A',
      _, _, _, harchive, hparsed, hversion, by decide +kernel, by decide +kernel⟩
  have hfile := fetch_answering (d := fun _ => none) hpackage rfl
  have hname : (sampleFetch 'A').cacheName sampleLibraries =
      (sampleFetch 'B').cacheName sampleLibraries := by
    unfold Fetch.cacheName sampleFetch
    rfl
  have hnames := (h.after (answering samplePackage)).names List.mem_cons_self (hname ▸ hfile)
    (hmatches 'B')
  exact absurd (hpackage.names.iff_same.mp hnames) (by decide +kernel)

end YaNuget.Internalize
