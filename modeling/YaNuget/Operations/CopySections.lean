import YaNuget.Operations.Exclusion

/-!
# What indexing a copy does to the memberships

A copy that may not overwrite brings its version into the feed as a listed one,
or changes no membership at all, also where it is cut off.
-/
namespace YaNuget

open Concurrency Op Fallible

def Called (s : Store Unit) (c : Call) (r : c.Answer) (s' : Store Unit) : Prop :=
  ∃ o, Store.exec () c o s = some (r, s')

namespace Database

/-- The two have the same memberships and tombstones. -/
structure Unmoved (db db' : Database) : Prop where
  tombstones : db'.tombstones = db.tombstones
  rows : ∀ key, db'.feedPackages.row key = db.feedPackages.row key

/-- The second has a listed version more under `key`, or the same memberships. -/
structure Brings (key : FeedName × VersionKey) (db db' : Database) : Prop where
  tombstones : db'.tombstones = db.tombstones
  others : ∀ other, other ≠ key → db'.feedPackages.row other = db.feedPackages.row other
  own : db'.feedPackages.row key = db.feedPackages.row key ∨
    db.feedPackages.row key = none ∧ ∃ m, db'.feedPackages.row key = some m ∧ m.listed = true

variable {key : FeedName × VersionKey} {db db₁ db₂ : Database}

theorem Unmoved.refl (db : Database) : Unmoved db db := ⟨rfl, fun _ => rfl⟩

theorem Unmoved.trans (h : Unmoved db db₁) (h' : Unmoved db₁ db₂) : Unmoved db db₂ :=
  ⟨h'.tombstones.trans h.tombstones, fun key => (h'.rows key).trans (h.rows key)⟩

theorem Unmoved.brings (h : Unmoved db db₁) : Brings key db db₁ :=
  ⟨h.tombstones, fun other _ => h.rows other, Or.inl (h.rows key)⟩

theorem Brings.refl (db : Database) : Brings key db db := (Unmoved.refl db).brings

theorem Brings.trans (h : Brings key db db₁) (h' : Brings key db₁ db₂) : Brings key db db₂ := by
  refine ⟨h'.tombstones.trans h.tombstones, fun other hother => ?_, ?_⟩
  · exact (h'.others other hother).trans (h.others other hother)
  · rcases h'.own with same | ⟨hnone, m, hm, hlisted⟩
    · rw [same]
      exact h.own
    · rcases h.own with same | ⟨-, m', hm', -⟩
      · exact Or.inr ⟨same.symm.trans hnone, m, hm, hlisted⟩
      · simp [hm'] at hnone

theorem Brings.isSome (h : Brings key db db₁) {other : FeedName × VersionKey}
    (hsome : (db.feedPackages.row other).isSome) : (db₁.feedPackages.row other).isSome := by
  by_cases hkey : other = key
  · subst hkey
    rcases h.own with same | ⟨hnone, -⟩
    · rwa [same]
    · simp [hnone] at hsome
  · rwa [h.others other hkey]

end Database

open Database

section Calls

variable {s s' : Store Unit} {c : Call} {r : c.Answer} {k : VersionKey}

theorem Called.query {q : DbCall} {r : (Call.db q).Answer} (h : Called s (.db q) r s') :
    (r = .error .database ∧ s' = s) ∨
      (r = (q.run s.db).1 ∧ s' = { s with db := (q.run s.db).2 }) :=
  h.elim fun _ hexec => Store.exec_query hexec

/-- Calls about the files of a version move no membership. -/
theorem Called.unmoved (h : Called s c r s') (hc : c.upkeep k) : Unmoved s.db s'.db := by
  obtain ⟨o, hexec⟩ := h
  cases c with
  | db q =>
    rcases Store.exec_query hexec with ⟨-, rfl⟩ | ⟨-, rfl⟩
    · exact Unmoved.refl _
    · cases q <;> first | exact Unmoved.refl _ | exact hc.elim | exact ⟨rfl, fun _ => rfl⟩
  | _ =>
    rw [(Store.exec_files hexec).1]
    exact Unmoved.refl _

/-- Neither does removing the data of a version that no feed holds. -/
theorem Called.unmoved_of_unheld (h : Called s c r s') (hc : c.purges k)
    (hunheld : ∀ f, s.db.feedPackages.row (f, k) = none) : Unmoved s.db s'.db := by
  by_cases hdelete : c = .db (.deletePackageData k)
  · subst hdelete
    rcases h.query with ⟨-, rfl⟩ | ⟨-, rfl⟩
    · exact Unmoved.refl _
    · refine ⟨tombstones_deletePackageData _ _, fun key => ?_⟩
      rw [DbCall.run, row_feedPackages_deletePackageData]
      split_ifs with hkey
      · rw [← hkey] at hunheld
        exact (hunheld key.1).symm
      · rfl
  · refine h.unmoved (k := k) ?_
    unfold Call.purges at hc
    split at hc
    · exact (hdelete (by rw [hc])).elim
    · exact hc

theorem Called.addVersion {p : Package} {feed : FeedName} {m : Membership}
    {r : Except Error Bool} (h : Called s (.db (.addVersion p feed m)) r s')
    (hlisted : m.listed = true) :
    ((∃ e, r = .error e) ∧ Unmoved s.db s'.db) ∨
      ((∃ inserted, r = .ok inserted) ∧ s.db.feedPackages.row (feed, p.key) = none ∧
        (s'.db.feedPackages.row (feed, p.key)).isSome ∧ Brings (feed, p.key) s.db s'.db) := by
  rcases h.query with ⟨rfl, rfl⟩ | ⟨rfl, rfl⟩
  · exact Or.inl ⟨⟨_, rfl⟩, Unmoved.refl _⟩
  rcases s.db.addVersion_cases feed p m with ⟨e, he⟩ | ⟨inserted, db', he, hnone, -, hrows, hrest⟩
  · exact Or.inl ⟨⟨e, by simp [DbCall.run, he]⟩, by simpa [DbCall.run, he] using Unmoved.refl _⟩
  · refine Or.inr ⟨⟨inserted, by simp [DbCall.run, he]⟩, hnone, ?_, ?_⟩
    · simp [DbCall.run, he, hrows]
    · have hbrings : Brings (feed, p.key) s.db db' := by
        refine ⟨hrest.tombstones, fun other hother => ?_, Or.inr ⟨hnone, m, ?_, hlisted⟩⟩
        · rw [hrows, if_neg hother]
        · rw [hrows, if_pos rfl]
      simpa [DbCall.run, he] using hbrings

end Calls

section Sections

variable {s : Store Unit} {k : VersionKey} {key : FeedName × VersionKey} {α : Type}

abbrev Copies (key : FeedName × VersionKey) (x : Op α) (Q : Except Error α → Store Unit → Prop)
    (s : Store Unit) : Prop :=
  x.run.Ensures Called (fun s s' => Brings key s.db s'.db) Q s

/-- Wherever it is cut off, it brings in no more than that. -/
theorem Copies.play {x : Op α} {Q : Except Error α → Store Unit → Prop} (h : Copies key x Q s)
    (calls : List Bool) :
    Brings key s.db (x.run.play (server Unit) () calls s).2.db ∧
      ∀ result, (x.run.play (server Unit) () calls s).1 = some result →
        Q result (x.run.play (server Unit) () calls s).2 := by
  have hstep : ∀ (s : Store Unit) (c : Call) (o : Bool) (r : c.Answer) (s' : Store Unit),
      (server Unit).exec () c o s = some (r, s') → Called s c r s' :=
    fun _ _ o _ _ hexec => ⟨o, hexec⟩
  refine Program.Ensures.play hstep ?_ ?_ h calls
  · exact fun s => Brings.refl s.db
  · exact fun _ _ _ => Brings.trans

theorem copies_upkeep {x : Op α} (hx : x.run.Calls (Call.upkeep k)) :
    Copies key x (fun _ s' => Unmoved s.db s'.db) s :=
  Program.Ensures.of_calls hx (fun _ hc _ _ _ hs h =>
    ⟨(h.unmoved hc).brings, hs.trans (h.unmoved hc)⟩) (Unmoved.refl _)

theorem copies_unheld {x : Op α} (hx : x.run.Calls (Call.purges k))
    (hunheld : ∀ f, s.db.feedPackages.row (f, k) = none) :
    Copies key x (fun _ s' => Unmoved s.db s'.db) s := by
  refine Program.Ensures.of_calls hx (fun c hc s₁ r s₂ hs h => ?_) (Unmoved.refl _)
  have hsame := h.unmoved_of_unheld hc fun f => (hs.rows _).trans (hunheld f)
  exact ⟨hsame.brings, hs.trans hsame⟩

/-- After a copy: the version has come in, or nothing has moved. -/
def Copied (key : FeedName × VersionKey) (db : Database) (result : Except Error α)
    (db' : Database) : Prop :=
  match result with
  | .ok _ => db.feedPackages.row key = none ∧ (db'.feedPackages.row key).isSome
  | .error _ => Unmoved db db'

theorem Copied.of_unmoved {result : Except Error α} {db db₁ db₂ : Database}
    (h : Unmoved db db₁) (h' : Copied key db₁ result db₂) : Copied key db result db₂ := by
  cases result with
  | ok a => exact ⟨(h.rows key).symm.trans h'.1, h'.2⟩
  | error e => exact h.trans h'

variable (site : Site) {feed : FeedName} (incoming : Incoming site.sha512) {options : IndexOptions}

theorem copies_indexNew (hlisted : options.unlisted = false)
    (hunheld : ∀ f, s.db.feedPackages.row (f, incoming.package.key) = none) :
    Copies (feed, incoming.package.key) (indexNew site feed incoming options)
      (fun result s' => Copied (feed, incoming.package.key) s.db result s'.db) s := by
  refine ensures_bind ((copies_upkeep (calls_storePayload _ _ _)).mono fun result s₁ hs₁ => ?_)
  cases result with
  | error e => exact hs₁
  | ok _ =>
  have hlisted' : (newMembership site incoming options).listed = true := by
    simp [newMembership, hlisted]
  refine ensures_bind (ensures_attempt fun added s₂ hadd => ?_)
  rcases hadd.addVersion hlisted' with ⟨⟨e, rfl⟩, hs₂⟩ | ⟨⟨inserted, rfl⟩, hnone, hsome, hbrings⟩
  · have hsame := hs₁.trans hs₂
    refine ⟨hs₂.brings, ?_⟩
    have undo : Copies (feed, incoming.package.key) (do
        let holders ← unwrapOr (query (.feedCount incoming.package.key)) 0
        onlyIf (holders = 0) do
          Fallible.ignore (query (.deletePackageData incoming.package.key))
          Fallible.ignore (file (.delete incoming.package.key))
        throw e : Op IndexResult)
        (fun result s' => Copied (feed, incoming.package.key) s.db result s'.db) s₂ := by
      have hcount : (unwrapOr (query (.feedCount incoming.package.key)) 0).run.Calls
          (Call.upkeep incoming.package.key) := calls_unwrapOr (calls_query trivial)
      refine ensures_bind ((copies_upkeep hcount).mono fun result s₃ hs₃ => ?_)
      cases result with
      | error e' => exact hsame.trans hs₃
      | ok holders =>
      have hsame₃ := hsame.trans hs₃
      have hdelete : (onlyIf (holders = 0) do
          Fallible.ignore (query (.deletePackageData incoming.package.key))
          Fallible.ignore (file (.delete incoming.package.key))).run.Calls
            (Call.purges incoming.package.key) := by
        apply calls_onlyIf
        exact calls_bind (calls_ignore (calls_query rfl)) fun _ => calls_ignore (calls_file rfl)
      refine ensures_bind ((copies_unheld hdelete fun f => (hsame₃.rows _).trans (hunheld f)).mono
        fun result s₄ hs₄ => ?_)
      cases result with
      | error e' => exact hsame₃.trans hs₄
      | ok _ => exact hsame₃.trans hs₄
    exact undo
  · exact ⟨hbrings, (hs₁.rows _).symm.trans hnone, hsome⟩

theorem copies_indexJoin (hlisted : options.unlisted = false)
    (existing : PackageAt incoming.package.key) (payloadPresent : Bool) :
    Copies (feed, incoming.package.key)
      (indexJoin site feed incoming options existing payloadPresent)
      (fun result s' => Copied (feed, incoming.package.key) s.db result s'.db) s := by
  refine ensures_bind ((copies_upkeep (k := incoming.package.key) calls_refuseIf).mono
    fun result s₁ hs₁ => ?_)
  cases result with
  | error e => exact hs₁
  | ok _ =>
  refine ensures_bind ((copies_upkeep (calls_onlyIf (calls_storePayload _ _ _))).mono
    fun result s₂ hs₂ => ?_)
  have hsame := hs₁.trans hs₂
  cases result with
  | error e => exact hsame
  | ok _ =>
  have hlisted' : (newMembership site incoming options).listed = true := by
    simp [newMembership, hlisted]
  refine ensures_bind fun added s₃ hadd => ?_
  rcases hadd.addVersion hlisted' with ⟨⟨e, rfl⟩, hs₃⟩ | ⟨⟨inserted, rfl⟩, hnone, hsome, hbrings⟩
  · exact ⟨hs₃.brings, hsame.trans hs₃⟩
  · rw [existing.2] at hnone hsome hbrings
    exact ⟨hbrings, (hsame.rows _).symm.trans hnone, hsome⟩

/-- A version the feed holds already is refused, and nothing moves. -/
theorem copies_indexOverwrite (hmode : options.overwrite = .disabled)
    (existing : PackageAt incoming.package.key) (previous : Membership) (payloadPresent : Bool) :
    Copies (feed, incoming.package.key)
      (indexOverwrite site feed incoming options existing previous payloadPresent)
      (fun result s' => Copied (feed, incoming.package.key) s.db result s'.db) s := by
  have hrefused : checkOverwrite site incoming options existing previous =
      throw (.versionExists (alreadyHere site incoming.package previous .disabled)) := by
    simp [checkOverwrite, hmode, OverwriteMode.allows, refuseIf, onlyIf]
  unfold indexOverwrite
  rw [hrefused]
  exact Unmoved.refl _

/-- What is dropped before a push was held by no feed. -/
theorem copies_dropRemains {existing : Option (PackageAt k)} (hread : existing = s.db.getPackageData k) :
    Copies key (dropRemains k existing) (fun result s' => Unmoved s.db s'.db ∧
      (result = .ok none → ∀ f, s.db.feedPackages.row (f, k) = none)) s := by
  cases existing with
  | none =>
    refine ⟨Unmoved.refl _, fun _ f => ?_⟩
    have hrow : s.db.packages.row k = none := (getPackageData_eq_none _ _).mp hread.symm
    by_contra hmember
    have hstored := s.db.package_of_member (Option.isSome_iff_ne_none.mpr hmember)
    simp [hrow] at hstored
  | some existing =>
    refine ensures_bind fun holders s₁ hcount => ?_
    have hs₁ : Unmoved s.db s₁.db := hcount.unmoved (k := k) trivial
    refine ⟨hs₁.brings, ?_⟩
    cases holders with
    | error e => exact ⟨hs₁, by simp⟩
    | ok holders =>
      have hholders : holders = s.db.feedCount k := by
        rcases hcount.query with ⟨hr, -⟩ | ⟨hr, -⟩
        · cases hr
        · exact Except.ok.inj hr
      simp only [Program.Ensures]
      split_ifs with hzero
      · have hunheld := (feedCount_eq_zero s.db k).mp (hholders ▸ hzero)
        refine ensures_bind ((copies_unheld (calls_purgeGlobalData k)
          fun f => (hs₁.rows _).trans (hunheld f)).mono fun result s₂ hs₂ => ?_)
        cases result with
        | error e => exact ⟨hs₁.trans hs₂, by simp⟩
        | ok _ => exact ⟨hs₁.trans hs₂, fun _ => hunheld⟩
      · refine ⟨hs₁, ?_⟩
        intro hnone
        cases hnone

/-- A version that the feed lacks is stored anew, or joined. -/
theorem copies_absent (hlisted : options.unlisted = false)
    {existing : Option (PackageAt incoming.package.key)}
    (hunheld : existing = none → ∀ f, s.db.feedPackages.row (f, incoming.package.key) = none) :
    Copies (feed, incoming.package.key) (match existing with
      | none => indexNew site feed incoming options
      | some existing => do
        let payloadPresent ← call (.packageExists incoming.package.key)
        indexJoin site feed incoming options existing payloadPresent)
      (fun result s' => Copied (feed, incoming.package.key) s.db result s'.db) s := by
  cases existing with
  | none => exact copies_indexNew site incoming hlisted (hunheld rfl)
  | some existing =>
    refine ensures_bind fun payloadPresent s₁ hlook => ?_
    have hs₁ : Unmoved s.db s₁.db := hlook.unmoved (k := incoming.package.key) trivial
    have rest : Copies (feed, incoming.package.key)
        (indexJoin site feed incoming options existing payloadPresent)
        (fun result s' => Copied (feed, incoming.package.key) s.db result s'.db) s₁ :=
      (copies_indexJoin site incoming hlisted existing payloadPresent).mono
        fun _ _ h => h.of_unmoved hs₁
    exact ⟨hs₁.brings, rest⟩

/-- The part under the lock. -/
theorem copies_indexLocked (hmode : options.overwrite = .disabled)
    (hlisted : options.unlisted = false) :
    Copies (feed, incoming.package.key) (indexLocked site feed incoming options)
      (fun result s' => Copied (feed, incoming.package.key) s.db result s'.db) s := by
  refine ensures_bind fun existing s₁ hread => ?_
  have hs₁ : Unmoved s.db s₁.db := hread.unmoved (k := incoming.package.key) trivial
  refine ⟨hs₁.brings, ?_⟩
  cases existing with
  | error e => exact hs₁
  | ok existing =>
  have hexisting : existing = s₁.db.getPackageData incoming.package.key := by
    rcases hread.query with ⟨hr, -⟩ | ⟨hr, rfl⟩
    · cases hr
    · exact Except.ok.inj hr
  refine ensures_bind fun previous s₂ hread => ?_
  have hsame : s₂.db = s₁.db := by
    rcases hread.query with ⟨-, rfl⟩ | ⟨-, rfl⟩ <;> rfl
  have hs₂ : Unmoved s.db s₂.db := by rwa [hsame]
  refine ⟨by rw [hsame]; exact Brings.refl _, ?_⟩
  cases previous with
  | error e => exact hs₂
  | ok previous =>
  have hprevious : previous = s₂.db.feedPackages.row (feed, incoming.package.key) := by
    rcases hread.query with ⟨hr, -⟩ | ⟨hr, rfl⟩
    · cases hr
    · exact Except.ok.inj hr
  refine ensures_bind ((copies_dropRemains (hsame ▸ hexisting)).mono fun result s₃ hs₃ => ?_)
  have hs₃' := hs₂.trans hs₃.1
  cases result with
  | error e => exact hs₃'
  | ok existing =>
  have hunheld : existing = none → ∀ f, s₃.db.feedPackages.row (f, incoming.package.key) = none :=
    fun hnone f => (hs₃.1.rows _).trans (hs₃.2 (by rw [hnone]) f)
  cases previous with
  | none =>
    have stray : dropStray feed incoming.package.key existing none = pure none := by
      simp [dropStray]
    dsimp only
    rw [stray]
    have rest := (copies_absent site incoming hlisted hunheld).mono
      (fun _ _ h => h.of_unmoved hs₃' : ∀ result s', _ →
        Copied (feed, incoming.package.key) s.db result s'.db)
    cases existing with
    | none => exact rest
    | some existing => exact rest
  | some previous =>
    have hheld : existing.isNone = false := by
      cases existing with
      | none =>
        have hrow := hs₃.2 rfl feed
        simp [← hprevious] at hrow
      | some existing => rfl
    have kept : dropStray feed incoming.package.key existing (some previous) =
        pure (some previous) := by
      simp [dropStray, hheld]
    dsimp only
    rw [kept]
    cases existing with
    | none => simp at hheld
    | some existing =>
      refine ensures_bind fun payloadPresent s₄ hlook => ?_
      have hs₄ : Unmoved s₃.db s₄.db := hlook.unmoved (k := incoming.package.key) trivial
      have rest : Copies (feed, incoming.package.key)
          (indexOverwrite site feed incoming options existing previous payloadPresent)
          (fun result s' => Copied (feed, incoming.package.key) s.db result s'.db) s₄ :=
        (copies_indexOverwrite site incoming hmode existing previous payloadPresent).mono
          fun _ _ h => h.of_unmoved (hs₃'.trans hs₄)
      exact ⟨hs₄.brings, rest⟩

/-- Indexing what a copy downloaded: the version asked for comes into the feed, or nothing moves. -/
theorem copies_indexPackage {want : ExpectedIdentity} (hmode : options.overwrite = .disabled)
    (hlisted : options.unlisted = false) (hexpect : options.expect = some want) (bytes : Content) :
    Copies (feed, versionKey want.id want.normalized) (indexPackage site feed bytes options)
      (fun result s' => Copied (feed, versionKey want.id want.normalized) s.db result s'.db) s := by
  unfold indexPackage
  cases haccept : accept site bytes options with
  | error e =>
    rw [ofResult_error_bind]
    exact Unmoved.refl _
  | ok incoming =>
    rw [ofResult_ok_bind, ← accept_key site haccept hexpect]
    refine ensures_bind fun _ s₁ hlock => ?_
    have hs₁ : Unmoved s.db s₁.db := by
      obtain ⟨o, hexec⟩ := hlock
      rw [(Store.exec_files hexec).1]
      exact Unmoved.refl _
    refine ⟨hs₁.brings, ensures_bind (ensures_attempt ?_)⟩
    refine (copies_indexLocked site incoming hmode hlisted).mono fun result s₂ h => ?_
    refine ensures_bind fun _ s₃ hunlock => ?_
    have hs₃ : s₃.db = s₂.db := by
      obtain ⟨o, hexec⟩ := hunlock
      exact (Store.exec_files hexec).1
    rw [hs₃]
    refine ⟨Brings.refl _, ?_⟩
    have hcopied := h.of_unmoved hs₁
    rw [← hs₃] at hcopied
    exact hcopied

end Sections

end YaNuget
