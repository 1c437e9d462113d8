import YaNuget.Operations.VersionView

/-!
# The build that the feeds share

Payload and package row of a version are stored once for all feeds. Two things
are asked of every operation: that the row keeps describing the payload, and
that a build is replaced only where the overwrite policy allows it. The first
needs the one step to go right that an overwrite cannot undo.
-/
namespace YaNuget

open Concurrency Op Fallible

section View

variable {k : VersionKey} (sha512 : Content → Digest) (v v' : View k)

/-- While some feed holds the version, its row describes its payload. -/
def View.Agrees : Prop :=
  ∀ f, (v.pending f).isSome →
    ∃ p b, v.package = some p ∧ v.payload = some b ∧ sha512 b = p.1.packageHash

def View.Unheld : Prop := ∀ f, v.pending f = none

/-- The version may be replaced from `feed` under an overwrite mode. -/
def View.Replaceable (feed : FeedName) (mode : OverwriteMode) : Prop :=
  if mode = .pendingOnly then ∀ f b, v.pending f = some b → b = true
  else (∃ isPrerelease, mode.allows isPrerelease = true) ∧ ∀ f, (v.pending f).isSome → f = feed

def View.MayReplace (rights : FeedName → OverwriteMode → Prop) : Prop :=
  v.Unheld ∨ ∃ feed mode, rights feed mode ∧ v.Replaceable feed mode

/-- The build and its attached files stay. A task that failed to look for the
payload may store the same content again. -/
structure View.SameBuild : Prop where
  payload : v.lookMissed = false → ∀ b, v.payload = some b → v'.payload = some b
  hash : ∀ p, v.package = some p →
    ∃ p', v'.package = some p' ∧ p'.1.packageHash = p.1.packageHash
  files : v'.files = v.files

def View.Permitted (rights : FeedName → OverwriteMode → Prop) : Prop :=
  v.MayReplace rights ∨ v.SameBuild v'

/-- A new payload is in place whose row is not written yet, and the previous
one was not kept aside. -/
def View.Exposed : Prop :=
  v.backupMissed = true ∧
    ∃ p b, v.package = some p ∧ v.payload = some b ∧ sha512 b ≠ p.1.packageHash

theorem View.SameBuild.refl : v.SameBuild v := ⟨fun _ _ h => h, fun p h => ⟨p, h, rfl⟩, rfl⟩

theorem View.Permitted.refl (rights : FeedName → OverwriteMode → Prop) : v.Permitted v rights :=
  Or.inr (View.SameBuild.refl v)

theorem View.Unheld.agrees {v : View k} (h : v.Unheld) : v.Agrees sha512 := by
  intro f hf
  simp [h f] at hf

end View

/-- The call failed or was refused. -/
def Call.failed : (c : Call) → c.Answer → Prop
  | .db _, r => ∃ e, r = .error e
  | .storage _, r => ∃ e, r = .error e
  | _, _ => False

/-- A step of an overwrite of version `k` after its new payload is stored: a
sidecar is stored, or the rows are swapped. -/
def Call.swaps (k : VersionKey) : Call → Prop
  | .storage (.storeAux k' _ _) => k' = k
  | .db (.replaceVersion p _ _) | .db (.replacePendingVersion p _ _ _ _) => p.key = k
  | _ => False

section Protocol

variable {T : Type} [DecidableEq T] (sha512 : Content → Digest)

/-- No step of an overwrite fails after its new payload is stored while the
previous one was not kept aside, and one that was kept aside is put back. -/
structure Protected (w : StoreWorld T) (e : StoreEvent T) : Prop where
  swap : ∀ k, e.call.swaps k → e.call.failed e.answer → ¬ (view e.thread k w).Exposed sha512
  putBack : ∀ k bytes, e.call = .storage (.storePackage k (.previous bytes)) →
    ¬ e.call.failed e.answer

variable (careful : Prop) (rights : T → FeedName → OverwriteMode → Prop)

/-- Builds are replaced only under the rights of the task, and in `careful`
runs the rows of a version nobody works on describe its payload. -/
def shared : Protocol T Call Call.Answer Bool (Store T) where
  inv w := careful → ∀ t k, w.state.versionLock k = none → (view t k w).Agrees sha512
  guar t w w' := ∀ k, (view t k w).Permitted (view t k w') (rights t)
  allow w e w' := Disciplined w e w' ∧ (careful → Protected sha512 w e)

variable (T)

/-- How a call of the lock's holder changes its view. -/
def Step {k : VersionKey} (v : View k) (c : Call) (r : c.Answer) (v' : View k) : Prop :=
  ∃ (t : T) (w w' : StoreWorld T) (o : Bool), view t k w = v ∧ view t k w' = v' ∧
    (server T).perform t c o w = some (r, w') ∧ (careful → Protected sha512 w ⟨t, c, o, r⟩)

end Protocol

section Steps

variable {T : Type} [DecidableEq T] {sha512 : Content → Digest} {careful : Prop}
variable {k : VersionKey} {v v' : View k}

theorem Step.frame {c : Call} {r : c.Answer} (h : Step T sha512 careful v c r v')
    (hc : ¬ c.touches k) (hs : c.silent k) : v' = v := by
  obtain ⟨t, w, w', o, rfl, rfl, hp, -⟩ := h
  exact view_frame hp hc (Or.inr hs)

theorem Step.query {q : DbCall} {r : (Call.db q).Answer}
    (h : Step T sha512 careful v (.db q) r v') :
    (∃ e, r = .error e ∧ v' = v) ∨
      ∃ db, v = v.withRows db ∧ r = (q.run db).1 ∧ v' = v.withRows (q.run db).2 := by
  obtain ⟨t, w, w', o, rfl, rfl, hp, -⟩ := h
  exact (view_query hp).imp_left fun h => ⟨_, h⟩

theorem Step.not_exposed {c : Call} {r : c.Answer} (h : Step T sha512 careful v c r v')
    (hc : c.swaps k) (hr : c.failed r) (hcareful : careful) : ¬ v.Exposed sha512 := by
  obtain ⟨t, w, w', o, rfl, rfl, hp, hprot⟩ := h
  exact (hprot hcareful).swap k hc hr

theorem Step.storePackage {file : TempFile} {r : (Call.storage (.storePackage k file)).Answer}
    (h : Step T sha512 careful v (.storage (.storePackage k file)) r v') :
    (∃ e, r = .error e ∧ v' = v ∧ (careful → ∀ bytes, file ≠ .previous bytes)) ∨
      r = .ok () ∧ v' = { v with payload := some file.bytes } := by
  obtain ⟨t, w, w', o, rfl, rfl, hp, hprot⟩ := h
  obtain ⟨hbackup, hlook⟩ := lastSeen_of_silent (k := k) (t := t) hp (Or.inr trivial)
  have hexec := ((server T).perform_eq_some.mp hp).1
  cases o with
  | true =>
    obtain ⟨hr, hs⟩ : .error .io = r ∧ w.state = w'.state := by
      simpa [server, Store.exec, StorageCall.failed] using hexec
    refine Or.inl ⟨_, hr.symm, ?_, ?_⟩
    · ext1 <;> simp [view, ← hs, hbackup, hlook]
    · rintro hcareful bytes rfl
      exact (hprot hcareful).putBack k bytes rfl ⟨_, hr.symm⟩
  | false =>
    obtain ⟨hr, hs⟩ : .ok () = r ∧ { w.state with storage := { w.state.storage with
        payload := Function.update w.state.storage.payload k (some file.bytes) } } = w'.state := by
      simpa [server, Store.exec, StorageCall.run] using hexec
    refine Or.inr ⟨hr.symm, ?_⟩
    ext1 <;> simp [view, ← hs, hbackup, hlook]

theorem Step.delete {r : (Call.storage (.delete k)).Answer}
    (h : Step T sha512 careful v (.storage (.delete k)) r v') :
    v' = v ∨ v' = { v with payload := none } := by
  obtain ⟨t, w, w', o, rfl, rfl, hp, -⟩ := h
  obtain ⟨hbackup, hlook⟩ := lastSeen_of_silent (k := k) (t := t) hp (Or.inr trivial)
  have hexec := ((server T).perform_eq_some.mp hp).1
  cases o with
  | true =>
    obtain ⟨-, hs⟩ : .error .io = r ∧ w.state = w'.state := by
      simpa [server, Store.exec, StorageCall.failed] using hexec
    refine Or.inl ?_
    ext1 <;> simp [view, ← hs, hbackup, hlook]
  | false =>
    obtain ⟨-, hs⟩ : .ok () = r ∧ { w.state with storage := { w.state.storage with
        payload := Function.update w.state.storage.payload k none
        aux := Function.update w.state.storage.aux k fun _ => none } } = w'.state := by
      simpa [server, Store.exec, StorageCall.run] using hexec
    refine Or.inr ?_
    ext1 <;> simp [view, ← hs, hbackup, hlook]

theorem Step.getPackage {r : (Call.storage (.getPackage k)).Answer}
    (h : Step T sha512 careful v (.storage (.getPackage k)) r v') :
    (∃ e, r = .error e ∧ v' = { v with backupMissed := true }) ∨
      r = .ok () ∧ v' = { v with backupMissed := false } := by
  obtain ⟨t, w, w', o, rfl, rfl, hp, -⟩ := h
  obtain ⟨hexec, hpast⟩ := (server T).perform_eq_some.mp hp
  cases o with
  | true =>
    obtain ⟨rfl, hs⟩ : .error .packageNotFound = r ∧ w.state = w'.state := by
      simpa [server, Store.exec, StorageCall.failed] using hexec
    refine Or.inl ⟨_, rfl, ?_⟩
    ext1 <;> simp [view, ← hs, hpast, seesBackup, seesLook, Except.isOk, Except.toBool]
  | false =>
    obtain ⟨rfl, hs⟩ : ((StorageCall.getPackage k).run w.state.storage).1 = r ∧
        w.state = w'.state := by
      simpa [server, Store.exec, StorageCall.run] using hexec
    simp only [StorageCall.run] at hpast ⊢
    split_ifs at hpast ⊢
    · refine Or.inr ⟨rfl, ?_⟩
      ext1 <;> simp [view, ← hs, hpast, seesBackup, seesLook, Except.isOk, Except.toBool]
    · refine Or.inl ⟨_, rfl, ?_⟩
      ext1 <;> simp [view, ← hs, hpast, seesBackup, seesLook, Except.isOk, Except.toBool]

theorem Step.hardLink {r : (Call.storage (.hardLink k)).Answer}
    (h : Step T sha512 careful v (.storage (.hardLink k)) r v') :
    (∃ e, r = .error e ∧ v' = { v with backupMissed := true }) ∨
      ∃ bytes, r = .ok bytes ∧ v.payload = some bytes ∧
        v' = { v with backupMissed := false } := by
  obtain ⟨t, w, w', o, rfl, rfl, hp, -⟩ := h
  obtain ⟨hexec, hpast⟩ := (server T).perform_eq_some.mp hp
  cases o with
  | true =>
    obtain ⟨rfl, hs⟩ : .error .io = r ∧ w.state = w'.state := by
      simpa [server, Store.exec, StorageCall.failed] using hexec
    refine Or.inl ⟨_, rfl, ?_⟩
    ext1 <;> simp [view, ← hs, hpast, seesBackup, seesLook, Except.isOk, Except.toBool]
  | false =>
    cases hb : w.state.storage.payload k with
    | some bytes =>
      obtain ⟨rfl, hs⟩ : .ok bytes = r ∧ w.state = w'.state := by
        simpa [server, Store.exec, StorageCall.run, hb] using hexec
      refine Or.inr ⟨bytes, rfl, hb, ?_⟩
      ext1 <;> simp [view, ← hs, hpast, seesBackup, seesLook, Except.isOk, Except.toBool]
    | none =>
      obtain ⟨rfl, hs⟩ : .error .io = r ∧ w.state = w'.state := by
        simpa [server, Store.exec, StorageCall.run, hb] using hexec
      refine Or.inl ⟨_, rfl, ?_⟩
      ext1 <;> simp [view, ← hs, hpast, seesBackup, seesLook, Except.isOk, Except.toBool]

theorem Step.packageExists {r : Bool} (h : Step T sha512 careful v (.packageExists k) r v') :
    ∃ missed, v' = { v with lookMissed := missed } ∧ (r = true → v.payload.isSome) ∧
      (r = false → v.payload = none ∨ missed = true) := by
  obtain ⟨t, w, w', o, rfl, rfl, hp, -⟩ := h
  obtain ⟨hexec, hpast⟩ := (server T).perform_eq_some.mp hp
  obtain ⟨rfl, hs⟩ : (!o && (w.state.storage.payload k).isSome) = r ∧ w.state = w'.state := by
    simpa [server, Store.exec] using hexec
  refine ⟨o, ?_, ?_, ?_⟩
  · ext1 <;> simp [view, ← hs, hpast, seesBackup, seesLook]
  · intro h
    exact (Bool.and_eq_true_iff.mp h).2
  · cases o <;> simp [view]

theorem Step.getPackageData {r : (Call.db (.getPackageData k)).Answer}
    (h : Step T sha512 careful v (.db (.getPackageData k)) r v') :
    v' = v ∧ ((∃ e, r = .error e) ∨ r = .ok v.package) := by
  rcases h.query with ⟨e, rfl, rfl⟩ | ⟨db, hv, rfl, hv'⟩
  · exact ⟨rfl, Or.inl ⟨e, rfl⟩⟩
  · exact ⟨hv'.trans hv.symm, Or.inr (congrArg Except.ok (congrArg View.package hv).symm)⟩

theorem Step.getMembership {f : FeedName} {r : (Call.db (.getMembership f k)).Answer}
    (h : Step T sha512 careful v (.db (.getMembership f k)) r v') :
    v' = v ∧ ((∃ e, r = .error e) ∨ ∃ m, r = .ok m ∧ v.pending f = m.map Membership.pending) := by
  rcases h.query with ⟨e, rfl, rfl⟩ | ⟨db, hv, rfl, hv'⟩
  · exact ⟨rfl, Or.inl ⟨e, rfl⟩⟩
  · exact ⟨hv'.trans hv.symm, Or.inr ⟨_, rfl, congrFun (congrArg View.pending hv) f⟩⟩

theorem View.pending_withRows (db : Database) (f : FeedName) :
    (v.withRows db).pending f = (db.feedPackages.row (f, k)).map Membership.pending := rfl

theorem Step.feedCount {r : (Call.db (.feedCount k)).Answer}
    (h : Step T sha512 careful v (.db (.feedCount k)) r v') :
    v' = v ∧ ((∃ e, r = .error e) ∨ ∃ n : ℕ, r = .ok n ∧ (n = 0 ↔ v.Unheld) ∧
      (n ≤ 1 → ∀ f g, (v.pending f).isSome → (v.pending g).isSome → f = g)) := by
  rcases h.query with ⟨e, rfl, rfl⟩ | ⟨db, hv, rfl, hv'⟩
  · exact ⟨rfl, Or.inl ⟨e, rfl⟩⟩
  · refine ⟨hv'.trans hv.symm, Or.inr ⟨_, rfl, ?_, ?_⟩⟩
    · rw [hv, db.feedCount_eq_zero k, View.Unheld]
      simp [View.pending_withRows]
    · intro hn f g hf hg
      rw [hv, View.pending_withRows, Option.isSome_map] at hf hg
      obtain ⟨m, hm⟩ := Option.isSome_iff_exists.mp hf
      obtain ⟨n, hn'⟩ := Option.isSome_iff_exists.mp hg
      exact db.eq_of_feedCount_le_one k hn hm hn'

theorem Step.approvedIn {r : (Call.db (.approvedIn k)).Answer}
    (h : Step T sha512 careful v (.db (.approvedIn k)) r v') :
    v' = v ∧ ((∃ e, r = .error e) ∨ ∃ feeds : List FeedName, r = .ok feeds ∧
      (feeds = [] ↔ ∀ f b, v.pending f = some b → b = true)) := by
  rcases h.query with ⟨e, rfl, rfl⟩ | ⟨db, hv, rfl, hv'⟩
  · exact ⟨rfl, Or.inl ⟨e, rfl⟩⟩
  · refine ⟨hv'.trans hv.symm, Or.inr ⟨_, rfl, ?_⟩⟩
    rw [hv, db.approvedIn_eq_nil k]
    simp only [View.pending_withRows, Option.map_eq_some_iff]
    constructor
    · rintro h f b ⟨m, hm, rfl⟩
      exact h f m hm
    · exact fun h f m hm => h f _ ⟨m, hm, rfl⟩

/-- A membership is written for a feed, and the package row is `package` then. -/
structure View.Writes (v : View k) (package : Option (PackageAt k)) (f : FeedName)
    (pending : Option Bool) (v' : View k) : Prop where
  payload : v'.payload = v.payload
  package : v'.package = package
  pending : v'.pending = Function.update v.pending f pending
  lookMissed : v'.lookMissed = v.lookMissed
  backupMissed : v'.backupMissed = v.backupMissed

theorem View.pending_update {db db' : Database} {f : FeedName} {m : Membership}
    (h : ∀ g, db'.feedPackages.row (g, k) =
      if (g, k) = (f, k) then some m else db.feedPackages.row (g, k)) :
    db'.pendingIn k = Function.update (db.pendingIn k) f (some m.pending) := by
  funext g
  by_cases hg : g = f
  · subst hg
    simp [Database.pendingIn, h]
  · rw [Function.update_of_ne hg]
    simp [Database.pendingIn, h, hg]

theorem Step.addVersion {p : PackageAt k} {f : FeedName} {m : Membership}
    {r : (Call.db (.addVersion p.1 f m)).Answer}
    (h : Step T sha512 careful v (.db (.addVersion p.1 f m)) r v') :
    (∃ e, r = .error e ∧ v' = v) ∨ (∃ inserted, r = .ok inserted) ∧ v'.files = v.files ∧
      v.Writes (some (v.package.getD p)) f (some m.pending) v' := by
  rcases h.query with ⟨e, rfl, rfl⟩ | ⟨db, hv, rfl, hv'⟩
  · exact Or.inl ⟨e, rfl, rfl⟩
  · obtain ⟨p, rfl⟩ := p
    rcases db.addVersion_cases f p m with ⟨e, he⟩ | ⟨inserted, db', he, -, hp, hm, hrest⟩
    · refine Or.inl ⟨e, by simp [DbCall.run, he], ?_⟩
      rw [hv', hv]
      simp [DbCall.run, he, View.withRows]
    · refine Or.inr ⟨⟨inserted, by simp [DbCall.run, he]⟩, ?_, ?_⟩
      · rw [hv', hv]
        simp [DbCall.run, he, View.withRows, Database.filesFor, hrest.packageFiles]
      · have hpackage : v.package = db.getPackageData p.key := congrArg View.package hv
        refine ⟨by rw [hv']; rfl, ?_, ?_, by rw [hv']; rfl, by rw [hv']; rfl⟩
        · rw [hv']
          simp only [DbCall.run, he, View.withRows]
          rw [Database.getPackageData_eq_some, hp, if_pos rfl, hpackage]
          cases hrow : db.packages.row p.key with
          | none => simp [(db.getPackageData_eq_none p.key).mpr hrow]
          | some q =>
            have := (db.getPackageData_eq_some p.key ⟨q, db.key_of_row hrow⟩).mpr hrow
            simp [this]
        · rw [hv', hv]
          simp only [DbCall.run, he, View.withRows]
          exact View.pending_update fun g => hm (g, p.key)

/-- The rows are swapped, and the attached files dropped or kept. -/
theorem Step.replaceVersion {p : PackageAt k} {f : FeedName} {m : Membership}
    {r : (Call.db (.replaceVersion p.1 f m)).Answer}
    (h : Step T sha512 careful v (.db (.replaceVersion p.1 f m)) r v') :
    (∃ e, r = .error e ∧ v' = v) ∨
      r = .ok () ∧ v'.files = v.files ∧ v.Writes (some p) f (some m.pending) v' := by
  rcases h.query with ⟨e, rfl, rfl⟩ | ⟨db, hv, rfl, hv'⟩
  · exact Or.inl ⟨e, rfl, rfl⟩
  · obtain ⟨p, rfl⟩ := p
    refine Or.inr ⟨rfl, by rw [hv', hv]; rfl, by rw [hv']; rfl, ?_, ?_, by rw [hv']; rfl,
      by rw [hv']; rfl⟩
    · rw [hv']
      simp only [DbCall.run, View.withRows]
      rw [Database.getPackageData_eq_some]
      simp
    · rw [hv', hv]
      simp only [DbCall.run, View.withRows]
      exact View.pending_update fun g => Database.row_feedPackages_replaceRows _ _ _ _ _

theorem Step.replacePendingVersion {p : PackageAt k} {f : FeedName} {m : Membership}
    {dropFiles : Bool} {others : List (FeedName × Policy.PolicyOutcome)}
    {r : (Call.db (.replacePendingVersion p.1 f m dropFiles others)).Answer}
    (h : Step T sha512 careful v (.db (.replacePendingVersion p.1 f m dropFiles others)) r v') :
    (∃ e, r = .error e ∧ v' = v) ∨
      (∃ dropped, r = .ok dropped) ∧ (∀ f b, v.pending f = some b → b = true) ∧
        (dropFiles = false → v'.files = v.files) ∧ v.Writes (some p) f (some m.pending) v' := by
  rcases h.query with ⟨e, rfl, rfl⟩ | ⟨db, hv, rfl, hv'⟩
  · exact Or.inl ⟨e, rfl, rfl⟩
  · obtain ⟨p, rfl⟩ := p
    rcases db.replacePendingVersion_cases f p m dropFiles others with
      ⟨e, he⟩ | ⟨dropped, db', he, happroved, hp, hm, -, -, hfiles⟩
    · refine Or.inl ⟨e, by simp [DbCall.run, he], ?_⟩
      rw [hv', hv]
      simp [DbCall.run, he, View.withRows]
    · refine Or.inr ⟨⟨dropped, by simp [DbCall.run, he]⟩, ?_, ?_, ?_⟩
      · rw [db.approvedIn_eq_nil p.key] at happroved
        intro g b hb
        rw [hv, View.pending_withRows, Option.map_eq_some_iff] at hb
        obtain ⟨n, hn, rfl⟩ := hb
        exact happroved g n hn
      · rintro rfl
        rw [hv', hv]
        simp only [DbCall.run, he, View.withRows, Database.filesFor, hfiles]
        rfl
      · refine ⟨by rw [hv']; rfl, ?_, ?_, by rw [hv']; rfl, by rw [hv']; rfl⟩
        · rw [hv']
          simp only [DbCall.run, he, View.withRows]
          rw [Database.getPackageData_eq_some, hp]
          simp
        · rw [hv', hv]
          simp only [DbCall.run, he, View.withRows]
          exact hm.pendingIn.trans
            (View.pending_update fun g => Database.row_feedPackages_replaceRows _ _ _ _ _)

/-- Only memberships change, and none is added. -/
structure View.Shrinks (v v' : View k) : Prop where
  payload : v'.payload = v.payload
  package : v'.package = v.package
  files : v'.files = v.files
  pending : ∀ f, (v'.pending f).isSome → (v.pending f).isSome

theorem View.shrinks_of_rows {db db' : Database} (hv : v = v.withRows db)
    (hv' : v' = v.withRows db') (hp : db'.packages = db.packages)
    (hf : db'.packageFiles = db.packageFiles)
    (hm : ∀ f, (db'.feedPackages.row (f, k)).isSome → (db.feedPackages.row (f, k)).isSome) :
    v.Shrinks v' := by
  refine ⟨by rw [hv']; rfl, ?_, ?_, fun f hf' => ?_⟩
  · rw [hv', hv]
    exact getPackageData_congr (by rw [hp])
  · rw [hv', hv]
    simp only [View.withRows, Database.filesFor, hf]
  · rw [hv', View.pending_withRows, Option.isSome_map] at hf'
    rw [hv, View.pending_withRows, Option.isSome_map]
    exact hm f hf'

/-- A query that takes memberships away or changes their flags. -/
def DbCall.shrinks : DbCall → Prop
  | .removeMembership _ _ | .removeMembershipForGood _ _ | .approveMembership _ _
  | .updateMemberships _ _ _ => True
  | _ => False

theorem Step.shrinks {q : DbCall} {r : (Call.db q).Answer}
    (h : Step T sha512 careful v (.db q) r v') (hq : q.shrinks) : v.Shrinks v' := by
  rcases h.query with ⟨e, rfl, rfl⟩ | ⟨db, hv, rfl, hv'⟩
  · exact ⟨rfl, rfl, rfl, fun _ h => h⟩
  cases q with
  | removeMembership f k' =>
    refine View.shrinks_of_rows hv hv' rfl rfl fun g hg => ?_
    simp only [DbCall.run, Database.row_feedPackages_removeMembership] at hg
    split_ifs at hg
    · simp at hg
    · exact hg
  | removeMembershipForGood f k' =>
    refine View.shrinks_of_rows hv hv' (by simp [DbCall.run]) ?_ fun g hg => ?_
    · simp only [DbCall.run, Database.removeMembershipForGood]
      split_ifs <;> rfl
    · simp only [DbCall.run, Database.row_feedPackages_removeMembershipForGood] at hg
      split_ifs at hg
      · simp at hg
      · exact hg
  | approveMembership f k' =>
    refine View.shrinks_of_rows hv hv' rfl rfl fun g hg => ?_
    simp only [DbCall.run, Database.approveMembership, Database.row_updateMembership] at hg
    split_ifs at hg
    · simpa using hg
    · exact hg
  | updateMemberships f ks change =>
    rcases db.updateMemberships_cases f ks change with ⟨e, he⟩ | ⟨n, db', he, hp, hrest, hm⟩
    · exact View.shrinks_of_rows hv hv' (by simp [DbCall.run, he]) (by simp [DbCall.run, he])
        fun g hg => by simpa [DbCall.run, he] using hg
    · simp only [DbCall.run, he] at hv'
      refine View.shrinks_of_rows hv hv' hp hrest.packageFiles fun g hg => ?_
      rw [hm] at hg
      split_ifs at hg
      · simpa using hg
      · exact hg
  | _ => exact hq.elim

theorem Step.addMembership {f : FeedName} {m : Membership}
    {r : (Call.db (.addMembership f k m)).Answer}
    (h : Step T sha512 careful v (.db (.addMembership f k m)) r v') :
    v' = v ∨ v'.payload = v.payload ∧ v'.package = v.package ∧ v'.files = v.files := by
  rcases h.query with ⟨e, rfl, rfl⟩ | ⟨db, hv, rfl, hv'⟩
  · exact Or.inl rfl
  · rcases db.insertMembership_cases f k m with ⟨e, he⟩ | ⟨hp, he, -⟩
    · exact Or.inl (by rw [hv', hv]; simp [DbCall.run, he, View.withRows])
    · refine Or.inr ⟨by rw [hv']; rfl, ?_, ?_⟩
      · rw [hv', hv]
        exact getPackageData_congr (by simp [DbCall.run, he, Database.upsertMembership])
      · rw [hv', hv]
        simp [DbCall.run, he, View.withRows, Database.filesFor, Database.upsertMembership]

theorem Step.deletePackageData {r : (Call.db (.deletePackageData k)).Answer}
    (h : Step T sha512 careful v (.db (.deletePackageData k)) r v') :
    (∃ e, r = .error e ∧ v' = v) ∨ v'.Unheld ∧ v'.package = none := by
  rcases h.query with ⟨e, rfl, rfl⟩ | ⟨db, hv, rfl, hv'⟩
  · exact Or.inl ⟨e, rfl, rfl⟩
  · refine Or.inr ⟨fun f => ?_, ?_⟩
    · rw [hv', View.pending_withRows]
      simp [DbCall.run, Database.row_feedPackages_deletePackageData]
    · rw [hv']
      simp only [DbCall.run, View.withRows]
      rw [Database.getPackageData_eq_none]
      simp [Database.row_packages_deletePackageData]

end Steps

end YaNuget
