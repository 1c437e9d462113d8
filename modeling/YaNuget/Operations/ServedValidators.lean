import YaNuget.Operations.ServedBuilds

/-!
# What validators describe

A download reads the row of the version on both sides of opening the stored
file, and sends validators only when both reads found the same build. They
describe what is sent as long as a file that is opened while the row still
records the build read before is of that build, and no build that was read is
recorded a second time. An icon is read after its row, with no second look.
-/
namespace YaNuget

open Concurrency Op Fallible

variable {T : Type}

/-- What is served of a package. -/
inductive FileKind where
  | package
  | manifest
  | icon
  deriving DecidableEq, Repr

namespace FileKind

def ofDownload (isNuspec : Bool) : FileKind := if isNuspec then manifest else package

/-- What the entity tag adds to the hash of the package. -/
def suffix : FileKind → String
  | package => ""
  | manifest => "-nuspec"
  | icon => "-icon"

def tag (kind : FileKind) (hash : Digest) : String := quotedTag (hash ++ kind.suffix)

def stored (s : Storage) (k : VersionKey) : FileKind → Option Content
  | package => s.payload k
  | manifest => s.aux k .nuspec
  | icon => s.aux k .icon

def opens (k : VersionKey) : FileKind → StorageCall
  | package => .openPackage k
  | manifest => .openAux k .nuspec
  | icon => .getAux k .icon

/-- The bytes are the package with this hash, or its manifest or icon. -/
def IsOf (site : Site) (hash : Digest) (bytes : Content) : FileKind → Prop
  | package => site.sha512 bytes = hash
  | manifest => ∃ b a, site.sha512 b = hash ∧ site.readArchive b = .ok a ∧ a.nuspec = bytes
  | icon => ∃ b a, site.sha512 b = hash ∧ site.readArchive b = .ok a ∧ a.icon = .ok (some bytes)

end FileKind

/-- Bytes go out with the answer. -/
def Sent.carries : Sent → Bool
  | .whole _ | .part _ _ _ _ => true
  | .notModified | .unsatisfiable _ => false

/-- The tag states the hash of a package, and the bytes sent are of that package. -/
def FileResponse.Describes (r : FileResponse) (site : Site) (kind : FileKind) (tag : String) :
    Prop :=
  ∃ hash, tag = kind.tag hash ∧
    (r.sent.carries = true → ∃ bytes, r.sent.IsOf bytes ∧ kind.IsOf site hash bytes)

/-- What tells the builds of a version apart: the hash, and the time of the push. -/
def Package.stamp (p : Package) : Digest × ℕ := (p.packageHash, p.published)

def readBuild (k : VersionKey) : StoreEvent T → Option (Digest × ℕ)
  | ⟨_, .db (.find _ k'), _, .ok (some p)⟩ => if k' = k then some p.1.stamp else none
  | _ => none

def lastBuild [DecidableEq T] (t : T) (k : VersionKey) (past : List (StoreEvent T)) :
    Option (Digest × ℕ) :=
  (past.find? fun e => e.thread = t).bind (readBuild k)

/-- The package row that the call writes. -/
def Call.records (db : Database) : Call → Option Package
  | .db (.addVersion p _ _) => if (db.packages.row p.key).isNone then some p else none
  | .db (.replaceVersion p _ _) | .db (.replacePendingVersion p _ _ _ _) => some p
  | _ => none

section Row

variable {k : VersionKey} {p : Package}

theorem DbCall.row_or_records {q : DbCall} {db : Database}
    (hp : (q.run db).2.packages.row k = some p) :
    db.packages.row k = some p ∨ (Call.db q).records db = some p := by
  cases q with
  | addVersion p' f m =>
    rcases db.addVersion_cases f p' m with ⟨e, he⟩ | ⟨_, db', he, -, hrows, -⟩
    · exact Or.inl (by simpa [run, he] using hp)
    · rw [show ((addVersion p' f m).run db).2 = db' by simp [run, he], hrows] at hp
      split_ifs at hp with hk
      · subst hk
        cases hrow : db.packages.row p'.key with
        | none =>
          rw [hrow] at hp
          exact Or.inr (by simpa [Call.records, hrow] using hp)
        | some p₀ =>
          rw [hrow] at hp
          exact Or.inl hp
      · exact Or.inl hp
  | replaceVersion p' f m =>
    by_cases hk : k = p'.key
    · subst hk
      exact Or.inr (by simpa [run, Call.records] using hp)
    · exact Or.inl (by simpa [run, hk] using hp)
  | replacePendingVersion p' f m dropFiles others =>
    rcases db.replacePendingVersion_cases f p' m dropFiles others with
      ⟨e, he⟩ | ⟨_, db', he, -, hrows, -⟩
    · exact Or.inl (by simpa [run, he] using hp)
    · rw [show ((replacePendingVersion p' f m dropFiles others).run db).2 = db' by simp [run, he],
        hrows] at hp
      by_cases hk : k = p'.key
      · subst hk
        exact Or.inr (by simpa [Call.records] using hp)
      · exact Or.inl (by simpa [hk] using hp)
  | deletePackageData k' =>
    rw [run, Database.row_packages_deletePackageData] at hp
    split_ifs at hp
    exact Or.inl hp
  | addMembership f k' m =>
    rcases db.insertMembership_cases f k' m with ⟨e, he⟩ | ⟨hp', he, -⟩
    · exact Or.inl (by simpa [run, he] using hp)
    · rw [run, he] at hp
      exact Or.inl hp
  | removeMembershipForGood f k' => exact Or.inl (by simpa [run] using hp)
  | updateMemberships f ks change =>
    rcases db.updateMemberships_cases f ks change with ⟨e, he⟩ | ⟨n, db', he, hrows, -⟩
    · exact Or.inl (by simpa [run, he] using hp)
    · exact Or.inl (by simpa [run, he, hrows] using hp)
  | renameFeed src dst hold =>
    simp only [run, Database.renameFeed] at hp
    split_ifs at hp
    · exact Or.inl hp
    · exact Or.inl hp
  | addFile k' file =>
    rcases db.addFile_cases k' file with ⟨e, he⟩ | ⟨db', he, -, hrows, -⟩
    · exact Or.inl (by simpa [run, he] using hp)
    · exact Or.inl (by simpa [run, he, hrows] using hp)
  | addSymbol s k' =>
    rcases db.addSymbol_cases k' s with ⟨e, he⟩ | ⟨-, he⟩ | ⟨db', he, -, -, hrows, -⟩
    · exact Or.inl (by simpa [run, he] using hp)
    · exact Or.inl (by simpa [run, he] using hp)
    · exact Or.inl (by simpa [run, he, hrows] using hp)
  | _ => exact Or.inl hp

/-- A row that a step leaves was there before, or is what the step writes. -/
theorem row_or_records [DecidableEq T] {t : T} {c : Call} {o : Bool} {w w' : StoreWorld T}
    {r : c.Answer} (h : (server T).perform t c o w = some (r, w'))
    (hp : w'.state.db.packages.row k = some p) :
    w.state.db.packages.row k = some p ∨ c.records w.state.db = some p := by
  rw [(Store.exec_files ((server T).perform_eq_some.mp h).1).1] at hp
  cases c with
  | db q =>
    cases o with
    | true => exact Or.inl hp
    | false => exact DbCall.row_or_records hp
  | _ => exact Or.inl hp

end Row

/-- What a request for an icon did before its answer. -/
theorem ran_packageIcon {d : IconRequest} {past : List (StoreEvent T)} {e : StoreEvent T}
    {q : Program Call Call.Answer (Except Error Unit)} {r : FileResponse}
    (h : (packageIcon d).run.Ran past q) (he : e ∈ past) (hr : e.call = .respond r) :
    ∃ find p, find.Shows (.db (.find d.feed d.k)) (.ok (some p)) ∧
      r.etag = some (FileKind.icon.tag p.1.packageHash) ∧
      (r.sent = .notModified ∨ ∃ reads bytes, past = [e, reads, find] ∧
        reads.Shows (.storage (FileKind.icon.opens d.k)) (.ok bytes) ∧ r.sent = .whole bytes) := by
  have hnot : ¬ e.call.operates := by
    rw [hr]
    exact id
  obtain ⟨_, later₁, _, rfl, hrefuse, he₁, h₁⟩ := ran_past h calls_refuseIf he hnot
  obtain ⟨rfl, -⟩ := ran_refuseIf hrefuse
  obtain ⟨row, later₂, _, rfl, hfind, he₂, h₂⟩ := ran_past h₁ (calls_query trivial) he₁ hnot
  obtain ⟨find, rfl, hshows⟩ := ran_query hfind
  cases row with
  | none =>
    obtain ⟨rfl, -⟩ := Program.Ran.of_done h₂
    simp at he₂
  | some p =>
    dsimp only at h₂
    split_ifs at h₂
    · rcases ran_call h₂ with rfl | ⟨answer, rfl, hanswer⟩
      · simp at he₂
      obtain rfl := List.mem_singleton.mp he₂
      obtain rfl := Call.respond.inj (hr.symm.trans hanswer)
      exact ⟨find, p, hshows, rfl, Or.inl rfl⟩
    · obtain ⟨bytes, later₃, _, rfl, hfile, he₃, h₃⟩ := ran_past h₂ (calls_file trivial) he₂ hnot
      obtain ⟨reads, rfl, hreads⟩ := ran_file hfile
      obtain ⟨_, later₄, _, rfl, hrefuse, he₄, h₄⟩ := ran_past h₃ calls_refuseIf he₃ hnot
      obtain ⟨rfl, -⟩ := ran_refuseIf hrefuse
      rcases ran_call h₄ with rfl | ⟨answer, rfl, hanswer⟩
      · simp at he₄
      obtain rfl := List.mem_singleton.mp he₄
      obtain rfl := Call.respond.inj (hr.symm.trans hanswer)
      exact ⟨find, p, hshows, rfl, Or.inr ⟨reads, bytes, rfl, hreads, rfl⟩⟩

section Steady

variable [DecidableEq T] {host : Host}

/-- Files are opened, and builds recorded, so that validators describe what is sent. -/
structure Steady (tasks : T → Task host) (w : StoreWorld T) (e : StoreEvent T) : Prop where
  /-- A file opened while the row is of the build read before is of it too, or of another size. -/
  opened : ∀ d, tasks e.thread = .download d →
    e.call = .storage ((FileKind.ofDownload d.isNuspec).opens d.k) →
    ∀ bytes, (FileKind.ofDownload d.isNuspec).stored w.state.storage d.k = some bytes →
    ∀ p, w.state.db.packages.row d.k = some p → lastBuild e.thread d.k w.past = some p.stamp →
      (FileKind.ofDownload d.isNuspec).IsOf host.toSite p.packageHash bytes ∨
        d.isNuspec = false ∧ p.packageSize ≠ bytes.length
  /-- The row is of the hash read before when an icon is read, and the icon is of that build. -/
  icon : ∀ d, tasks e.thread = .icon d → e.call = .storage (FileKind.icon.opens d.k) →
    ∀ bytes, FileKind.icon.stored w.state.storage d.k = some bytes →
      ∃ p, w.state.db.packages.row d.k = some p ∧
        (lastBuild e.thread d.k w.past).map Prod.fst = some p.packageHash ∧
        FileKind.icon.IsOf host.toSite p.packageHash bytes
  /-- A build that was read is recorded only in its own place. -/
  recorded : ∀ p, e.call.records w.state.db = some p →
    (∃ e' ∈ w.past, readBuild p.key e' = some p.stamp) →
      ∃ p', w.state.db.packages.row p.key = some p' ∧ p'.stamp = p.stamp ∧
        p'.packageSize = p.packageSize

variable {tasks : T → Task host} {c c' : Config T Call Call.Answer Bool (Store T)}
variable {k : VersionKey}

/-- What is known of the size of a build that was read stays known. -/
theorem size_of_read {stamp : Digest × ℕ} (P : ℕ → Prop)
    (h : (server T).Reaches (fun w e _ => Steady tasks w e) c c')
    (hread : ∃ e ∈ c.world.past, readBuild k e = some stamp)
    (hsize : ∀ p, c.world.state.db.packages.row k = some p → p.stamp = stamp → P p.packageSize) :
    ∀ p, c'.world.state.db.packages.row k = some p → p.stamp = stamp → P p.packageSize := by
  induction h with
  | refl => exact hsize
  | @step c₁ t o call r next w hr _ hperform hsteady ih =>
    intro p hp hstamp
    rcases row_or_records hperform hp with hkept | hrecords
    · exact ih p hkept hstamp
    · obtain rfl := w.state.db.key_of_row hp
      obtain ⟨later, hpast, -⟩ := hr.ran
      obtain ⟨e, he, hbuild⟩ := hread
      have hseen : ∃ e ∈ c₁.world.past, readBuild p.key e = some p.stamp :=
        ⟨e, by simp [hpast, he], by rw [hbuild, hstamp]⟩
      obtain ⟨p', hp', hstamp', hsize'⟩ := hsteady.recorded p hrecords hseen
      rw [← hsize']
      exact ih p' hp' (hstamp'.trans hstamp)

theorem row_of_find {db : Database} {f : FeedName} {p : PackageAt k} (h : db.find f k = some p) :
    db.packages.row k = some p.1 := by
  unfold Database.find at h
  split_ifs at h
  obtain ⟨p', hp', hrow, rfl⟩ := Option.pmap_eq_some_iff.mp h
  exact hrow

theorem lastBuild_of_find {t : T} {f : FeedName} {p : PackageAt k} {e : StoreEvent T}
    {past rest : List (StoreEvent T)} (hpast : (past.filter fun e' => e'.thread = t) = e :: rest)
    (he : e.Shows (.db (.find f k)) (.ok (some p))) : lastBuild t k past = some p.1.stamp := by
  obtain ⟨u, o, rfl⟩ := he
  unfold lastBuild
  rw [← List.head?_filter, hpast]
  simp [readBuild]

theorem stored_of_opens {isNuspec : Bool} {bytes : Content} {e : StoreEvent T}
    {w w' : StoreWorld T} (hopens : OpensContent k isNuspec bytes e)
    (hperform : (server T).perform e.thread e.call e.choice w = some (e.answer, w')) :
    e.call = .storage ((FileKind.ofDownload isNuspec).opens k) ∧
      (FileKind.ofDownload isNuspec).stored w.state.storage k = some bytes := by
  unfold OpensContent at hopens
  cases isNuspec with
  | true =>
    obtain ⟨t, o, rfl⟩ := hopens
    exact ⟨rfl, openFile_eq_ok.mp (perform_file_ok (by simp [StorageCall.failed]) hperform)⟩
  | false =>
    obtain ⟨t, o, rfl⟩ := hopens
    exact ⟨rfl, openFile_eq_ok.mp (perform_file_ok (by simp [StorageCall.failed]) hperform)⟩

theorem settledRow_spec {before after : Option (PackageAt k)} {isNuspec : Bool} {size : ℕ}
    {row : PackageAt k} (h : settledRow before after isNuspec size = some row) :
    ∃ b, before = some b ∧ after = some row ∧ row.1.stamp = b.1.stamp ∧
      (isNuspec = true ∨ row.1.packageSize = size) := by
  unfold settledRow at h
  split at h
  · split_ifs at h with hsame
    obtain rfl := Option.some.inj h
    obtain ⟨hhash, hpublished, hsize⟩ := hsame
    exact ⟨_, rfl, rfl, by simp [Package.stamp, hhash, hpublished], hsize⟩
  · cases h

/-- The validators of a download describe what it sends. -/
theorem download_describes {s : Store T} {e : StoreEvent T} {d : DownloadRequest} {tag : String}
    {r : FileResponse}
    (h : (server T).Reaches (fun w e _ => Steady tasks w e) (working s tasks) c)
    (he : e ∈ c.world.past) (htask : tasks e.thread = .download d) (hr : e.call = .respond r)
    (htag : r.etag = some tag) :
    r.Describes host.toSite (FileKind.ofDownload d.isNuspec) tag := by
  obtain ⟨access, later, earlier, htrace, -, ⟨served⟩⟩ := download_of_answer h he htask hr
  rw [served.past_eq] at htrace
  rw [served.response_eq, serveOpenFile_etag] at htag
  obtain ⟨value, hvalue, rfl⟩ := Option.map_eq_some_iff.mp htag
  obtain ⟨p, hp, rfl⟩ := Option.map_eq_some_iff.mp hvalue
  obtain ⟨row, hrow, rfl⟩ := Option.map_eq_some_iff.mp hp
  obtain ⟨first, hbefore, hafter, hstamp, hsize⟩ := settledRow_spec hrow
  have own : ∀ e' ∈ [served.answer, served.size, served.second, served.opens, served.first,
      served.look] ++ earlier, e'.thread = e.thread := by
    intro e' he'
    rw [← htrace] at he'
    simpa using List.of_mem_filter he'
  have hsized : (c.world.past.filter fun e' => e'.thread = e.thread) = [served.answer] ++
      served.size :: ([served.second, served.opens, served.first, served.look] ++ earlier) := htrace
  obtain ⟨c₃, w₃, hreach₃, hpast₃, hperform₃, -, -⟩ := h.split_filter rfl hsized
  have hread : (c₃.world.past.filter fun e' => e'.thread = e.thread) =
      [] ++ served.second :: ([served.opens, served.first, served.look] ++ earlier) := hpast₃
  obtain ⟨c₂, w₂, hreach₂, hpast₂, hperform₂, -, -⟩ := hreach₃.split_filter rfl hread
  have hopen : (c₂.world.past.filter fun e' => e'.thread = e.thread) =
      [] ++ served.opens :: ([served.first, served.look] ++ earlier) := hpast₂
  obtain ⟨c₁, w₁, -, hpast₁, hperform₁, hsteady, hrest₁⟩ := hreach₂.split_filter rfl hopen
  have hmeasured : served.measured = served.bytes.length := by
    obtain ⟨t, o, hsizes⟩ := served.measures
    rw [hsizes] at hperform₃
    exact (Except.ok.inj (perform_file_ok (by simp [StorageCall.failed]) hperform₃)).symm
  have hsecond : c₂.world.state.db.packages.row d.k = some row.1 := by
    obtain ⟨r₂, ⟨t, o, hfind⟩, hanswer⟩ := served.finds_after
    obtain rfl := hanswer row hafter
    rw [hfind] at hperform₂
    exact row_of_find (Except.ok.inj (perform_query_ok hperform₂))
  obtain ⟨hcall, hstored⟩ := stored_of_opens served.opens_content hperform₁
  obtain ⟨r₁, hfirst, hanswer⟩ := served.finds_before
  obtain rfl := hanswer first hbefore
  have hlast : lastBuild e.thread d.k c₁.world.past = some first.1.stamp :=
    lastBuild_of_find hpast₁ hfirst
  have hthread : served.opens.thread = e.thread := own _ (by simp)
  let P : ℕ → Prop := fun size =>
    (FileKind.ofDownload d.isNuspec).IsOf host.toSite first.1.packageHash served.bytes ∨
      d.isNuspec = false ∧ size ≠ served.bytes.length
  have hopened : ∀ p, c₁.world.state.db.packages.row d.k = some p → p.stamp = first.1.stamp →
      P p.packageSize := by
    intro p hp hstamp'
    have hhash : p.packageHash = first.1.packageHash := congrArg Prod.fst hstamp'
    simp only [P, ← hhash]
    exact hsteady.opened d (hthread ▸ htask) hcall _ hstored p hp (by rw [hthread, hstamp', hlast])
  have hseen : ∃ e' ∈ c₁.world.past, readBuild d.k e' = some first.1.stamp := by
    have hmem : served.first ∈ c₁.world.past.filter fun e' => e'.thread = e.thread := by
      simp [hpast₁]
    refine ⟨served.first, List.mem_of_mem_filter hmem, ?_⟩
    obtain ⟨t, o, heq⟩ := hfirst
    rw [heq]
    simp [readBuild]
  have hkept := size_of_read P hrest₁ hseen hopened _ hsecond hstamp
  have hhash : row.1.packageHash = first.1.packageHash := congrArg Prod.fst hstamp
  have hbytes : (FileKind.ofDownload d.isNuspec).IsOf host.toSite row.1.packageHash served.bytes := by
    rw [hhash]
    rcases hkept with hof | ⟨hpackage, hother⟩
    · exact hof
    · rcases hsize with hnuspec | hsize
      · simp [hpackage] at hnuspec
      · exact (hother (hsize.trans hmeasured)).elim
  refine ⟨row.1.packageHash, ?_, fun _ => ⟨served.bytes, served.isOf, hbytes⟩⟩
  cases d.isNuspec with
  | true => rfl
  | false => simp [FileKind.ofDownload, FileKind.tag, FileKind.suffix]

/-- The validator of an icon describes what it sends. -/
theorem icon_describes {s : Store T} {e : StoreEvent T} {d : IconRequest} {tag : String}
    {r : FileResponse}
    (h : (server T).Reaches (fun w e _ => Steady tasks w e) (working s tasks) c)
    (he : e ∈ c.world.past) (htask : tasks e.thread = .icon d) (hr : e.call = .respond r)
    (htag : r.etag = some tag) : r.Describes host.toSite .icon tag := by
  obtain ⟨q, hran⟩ := ran_of_reaches h e.thread
  rw [htask] at hran
  have hmem : e ∈ c.world.past.filter fun e' => e'.thread = e.thread := by simpa using he
  obtain ⟨find, p, hfind, hetag, hsent⟩ := ran_packageIcon hran hmem hr
  obtain rfl : FileKind.icon.tag p.1.packageHash = tag := Option.some.inj (hetag.symm.trans htag)
  refine ⟨p.1.packageHash, rfl, fun hcarries => ?_⟩
  rcases hsent with hsent | ⟨reads, bytes, hpast, hreads, hsent⟩
  · simp [hsent, Sent.carries] at hcarries
  have hread : (c.world.past.filter fun e' => e'.thread = e.thread) = [e] ++ reads :: [find] := hpast
  obtain ⟨c₁, w₁, -, hpast₁, hperform, hsteady, -⟩ := h.split_filter rfl hread
  have hthread : reads.thread = e.thread := by
    have hmem : reads ∈ c.world.past.filter fun e' => e'.thread = e.thread := by simp [hread]
    simpa using List.of_mem_filter hmem
  have hstored : FileKind.icon.stored c₁.world.state.storage d.k = some bytes := by
    obtain ⟨t, o, heq⟩ := hreads
    rw [heq] at hperform
    have hfound := perform_file_ok (by simp [StorageCall.failed, FileKind.opens]) hperform
    simp only [StorageCall.run, FileKind.opens] at hfound
    cases haux : c₁.world.state.storage.aux d.k .icon with
    | none => simp [haux] at hfound
    | some b =>
      rw [haux] at hfound
      exact haux.trans (congrArg some (Except.ok.inj hfound))
  obtain ⟨p', hp', hhash, hof⟩ := hsteady.icon d (hthread ▸ htask) hreads.call_eq bytes hstored
  rw [hthread, lastBuild_of_find hpast₁ hfind] at hhash
  have hsame : p.1.packageHash = p'.packageHash := Option.some.inj hhash
  exact ⟨bytes, by rw [hsent]; rfl, hsame ▸ hof⟩

/-- The task's answers are files of this kind. -/
def Task.serves : Task host → Option FileKind
  | .download d => some (FileKind.ofDownload d.isNuspec)
  | .icon _ => some .icon
  | _ => none

/-- While files are opened and builds recorded so, a validator describes the
bytes that are sent with it. -/
theorem validators_describe {s : Store T} {e : StoreEvent T} {kind : FileKind} {tag : String}
    {r : FileResponse}
    (h : (server T).Reaches (fun w e _ => Steady tasks w e) (working s tasks) c)
    (he : e ∈ c.world.past) (htask : (tasks e.thread).serves = some kind)
    (hr : e.call = .respond r) (htag : r.etag = some tag) :
    r.Describes host.toSite kind tag := by
  cases ht : tasks e.thread with
  | download d =>
    obtain rfl : FileKind.ofDownload d.isNuspec = kind := by simpa [ht, Task.serves] using htask
    exact download_describes h he ht hr htag
  | icon d =>
    obtain rfl : FileKind.icon = kind := by simpa [ht, Task.serves] using htask
    exact icon_describes h he ht hr htag
  | _ => simp [ht, Task.serves] at htask

end Steady

/-! A sample: every build has an icon, which is its bytes after the magic ones. -/

def iconSite : Site :=
  { sampleSite with
    readArchive := fun bytes =>
      .ok { sampleArchive bytes with icon := .ok (some ([0x42, 0x4D] ++ bytes)) } }

def iconHost : Host := { sampleHost with toSite := iconSite }

def sampleSteady (w : StoreWorld (Fin 8)) (e : StoreEvent (Fin 8)) : Bool :=
  (match sampleServing iconHost e.thread with
    | .download d => e.call ≠ .storage ((FileKind.ofDownload d.isNuspec).opens d.k) ||
      ((FileKind.ofDownload d.isNuspec).stored w.state.storage d.k).all fun bytes =>
        (w.state.db.packages.row d.k).all fun p => iconSite.sha512 bytes = p.packageHash
    | .icon d => e.call ≠ .storage (FileKind.icon.opens d.k) ||
      (FileKind.icon.stored w.state.storage d.k).all fun bytes =>
        (w.state.db.packages.row d.k).any fun p =>
          (lastBuild e.thread d.k w.past).map Prod.fst = some p.packageHash &&
            ([0x42, 0x4D] ++ bytes.drop 2 = bytes && iconSite.sha512 (bytes.drop 2) = p.packageHash)
    | _ => true) &&
  ((e.call.records w.state.db).all fun p =>
    !w.past.any fun e' => readBuild p.key e' = some p.stamp)

theorem isOf_ofDownload {bytes : Content} {hash : Digest} (isNuspec : Bool)
    (h : iconSite.sha512 bytes = hash) : (FileKind.ofDownload isNuspec).IsOf iconSite hash bytes := by
  cases isNuspec with
  | false => exact h
  | true => exact ⟨bytes, _, h, rfl, rfl⟩

theorem steady_of_sampleSteady {w : StoreWorld (Fin 8)} {e : StoreEvent (Fin 8)}
    (h : sampleSteady w e = true) : Steady (sampleServing iconHost) w e := by
  obtain ⟨hopened, hrecorded⟩ := Bool.and_eq_true_iff.mp h
  refine ⟨fun d hd hcall bytes hbytes p hp _ => ?_, fun d hd hcall bytes hbytes => ?_,
    fun p hp hread => ?_⟩
  · have hof : iconSite.sha512 bytes = p.packageHash := by
      simpa [hd, hcall, hbytes, hp] using hopened
    exact Or.inl (isOf_ofDownload d.isNuspec hof)
  · simp only [hd, hcall, ne_eq, not_true_eq_false, decide_false, Bool.false_or, hbytes,
      Option.all_some, Option.any_eq_true, Bool.and_eq_true, decide_eq_true_eq] at hopened
    obtain ⟨p, hp, hlast, hmagic, hof⟩ := hopened
    refine ⟨p, hp, hlast, bytes.drop 2, _, hof, rfl, ?_⟩
    exact congrArg (fun icon => Except.ok (some icon)) hmagic
  · obtain ⟨e', he', hbuild⟩ := hread
    rw [hp, Option.all_some] at hrecorded
    have hunread : ∀ e' ∈ w.past, readBuild p.key e' ≠ some p.stamp := by
      simpa using hrecorded
    exact (hunread e' he' hbuild).elim

def manifestAnswer : FileResponse := { secondAnswer with etag := some (quotedTag "second-nuspec") }

def iconAnswer : FileResponse :=
  ⟨some (quotedTag "second-icon"), "public, no-cache", none, .whole [0x42, 0x4D, 2]⟩

/-- After an overwrite each answer describes the second build, though a download of the first was
under way. -/
theorem validators_describe_sample :
    ∃ c, (server (Fin 8)).run (working (Store.empty _) (sampleServing iconHost))
        (calls 0 10 ++ calls 1 3 ++ calls 4 4 ++ calls 2 19 ++ calls 4 3 ++ calls 3 3 ++
          calls 5 7 ++ calls 6 7 ++ calls 7 3) = some c ∧
      secondAnswer.Describes iconSite .package (quotedTag "second") ∧
      manifestAnswer.Describes iconSite .manifest (quotedTag "second-nuspec") ∧
      iconAnswer.Describes iconSite .icon (quotedTag "second-icon") := by
  let start := working (Store.empty (Fin 8)) (sampleServing iconHost)
  let schedule : List (Fin 8 × Bool) :=
    calls 0 10 ++ calls 1 3 ++ calls 4 4 ++ calls 2 19 ++ calls 4 3 ++ calls 3 3 ++ calls 5 7 ++
      calls 6 7 ++ calls 7 3
  have passed : (server (Fin 8)).runs (fun w e _ => sampleSteady w e) start schedule = true := by
    decide +kernel
  obtain ⟨c, hrun, hreach⟩ : ∃ c, (server (Fin 8)).run start schedule = some c ∧
      (server (Fin 8)).Reaches (fun w e _ => Steady (sampleServing iconHost) w e) start c :=
    Machine.Reaches.of_runs (fun _ _ _ => steady_of_sampleSteady) passed
  have answered : ((server (Fin 8)).run start schedule).map (fun c =>
      decide (∀ answer ∈ [((5 : Fin 8), secondAnswer), (6, manifestAnswer), (7, iconAnswer)],
        ∃ e ∈ c.world.past, (e.thread, e.call) = (answer.1, .respond answer.2))) = some true := by
    decide +kernel
  simp only [hrun, Option.map_some, Option.some.injEq, decide_eq_true_eq] at answered
  have describes {t : Fin 8} {r : FileResponse} {kind : FileKind} {tag : String}
      (hmem : ∃ e ∈ c.world.past, (e.thread, e.call) = (t, .respond r))
      (hkind : (sampleServing iconHost t).serves = some kind) (htag : r.etag = some tag) :
      r.Describes iconSite kind tag := by
    obtain ⟨e, he, hanswer⟩ := hmem
    obtain ⟨rfl, hcall⟩ := Prod.mk.inj hanswer
    exact validators_describe hreach he hkind hcall htag
  refine ⟨c, hrun, ?_, ?_, ?_⟩
  · exact describes (answered (5, secondAnswer) (by simp)) rfl rfl
  · exact describes (answered (6, manifestAnswer) (by simp)) rfl rfl
  · exact describes (answered (7, iconAnswer) (by simp)) rfl rfl

/-- The tag of one build goes out with the bytes of another of the same size: a
download reads the row twice while an overwriting push has moved its payload
into place, and has not swapped the rows. -/
theorem validator_of_another_build :
    ∃ c e, (server (Fin 4)).Reaches (fun _ _ _ => True)
        (working (Store.empty _) sampleRebuild) c ∧ e ∈ c.world.past ∧
      (sampleRebuild e.thread).serves = some .package ∧ e.call = .respond (sampleAnswer [2]) ∧
      (sampleAnswer [2]).etag = some (quotedTag "first") ∧
      ¬ (sampleAnswer [2]).Describes sampleHost.toSite .package (quotedTag "first") := by
  have answered : ((server (Fin 4)).run (working (Store.empty _) sampleRebuild)
      (calls 0 9 ++ calls 1 3 ++ calls 3 1 ++ calls 2 12 ++ calls 3 6)).bind (fun c =>
        c.world.past.head?.map fun e => (e.thread, e.call)) =
          some (3, .respond (sampleAnswer [2])) := by
    decide +kernel
  obtain ⟨c, hrun, hlast⟩ := Option.bind_eq_some_iff.mp answered
  obtain ⟨e, he, hanswer⟩ := Option.map_eq_some_iff.mp hlast
  obtain ⟨hthread, hcall⟩ := Prod.mk.inj hanswer
  have htask : (sampleRebuild e.thread).serves = some .package := by rw [hthread]; rfl
  refine ⟨c, e, .of_run hrun, List.mem_of_mem_head? he, htask, hcall, rfl, ?_⟩
  rintro ⟨hash, htag, hsent⟩
  obtain ⟨bytes, rfl, hbytes⟩ := hsent rfl
  have hhash : hash = "second" := hbytes.symm
  rw [hhash] at htag
  exact absurd htag (by decide)

end YaNuget
