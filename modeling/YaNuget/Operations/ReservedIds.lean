import YaNuget.Operations.ReservedPrefixes
import YaNuget.Operations.Exclusion
import YaNuget.Operations.ServedValidators

/-!
# Reserved ids stay with their feed

Pushes, the mirror and migrations store a package only after the feed they
index into has let its id pass. So whatever they do at the same time, from an
empty store, every row of a reserved id was stored for the feed that reserved it.
-/
namespace YaNuget

open Concurrency Op Fallible Protocol Policy

/-- The call stores the row of package `p` and makes it a member of feed `f`. -/
def Call.storesInto : Call → Package → FeedName → Prop
  | .db (.addVersion p' f' _), p, f | .db (.replaceVersion p' f' _), p, f
  | .db (.replacePendingVersion p' f' _ _ _), p, f => p' = p ∧ f' = f
  | _, _, _ => False

/-- A call that stores no row of a package and gives no feed a membership. -/
def Call.storeless : Call → Prop
  | .db (.addVersion _ _ _) | .db (.replaceVersion _ _ _)
  | .db (.replacePendingVersion _ _ _ _ _) | .db (.addMembership _ _ _)
  | .db (.renameFeed _ _ _) => False
  | _ => True

def Package.Named (p : Package) : Prop := toAsciiLowercase p.id = p.key.lowerId

/-- A call that stores, if at all, packages whose ids are taken, and gives memberships no other
way. -/
def Call.Admitted (takes : FeedName → String → Prop) (c : Call) : Prop :=
  c.storeless ∨ ∃ p f, c.storesInto p f ∧ p.Named ∧ takes f p.id

theorem Call.Admitted.of_storesInto {takes : FeedName → String → Prop} {c : Call} {p : Package}
    {f : FeedName} (hc : c.Admitted takes) (h : c.storesInto p f) : p.Named ∧ takes f p.id := by
  rcases hc with hstoreless | ⟨p', f', hstores, hnamed, htakes⟩
  · cases c with
    | db q => cases q <;> first | exact hstoreless.elim | exact h.elim
    | _ => exact h.elim
  · have hsame : p' = p ∧ f' = f := by
      cases c with
      | db q =>
        cases q <;> first
          | exact h.elim
          | exact ⟨hstores.1.symm.trans h.1, hstores.2.symm.trans h.2⟩
      | _ => exact h.elim
    rw [← hsame.1, ← hsame.2]
    exact ⟨hnamed, htakes⟩

theorem Call.storeless_of_purges {k : VersionKey} {c : Call} (h : c.purges k) : c.storeless := by
  cases c with
  | db q => cases q <;> trivial
  | _ => trivial

theorem Call.storeless_of_approves {ks : List VersionKey} {c : Call} (h : c.approves ks) :
    c.storeless := by
  cases c with
  | db q => cases q <;> trivial
  | _ => trivial

theorem Call.storeless_of_unlocked {q : DbCall} (h : q.unlocked) : (Call.db q).storeless := by
  cases q <;> trivial

section Rows

variable {db : Database} {q : DbCall} {k : VersionKey} {f : FeedName}

theorem DbCall.row_or_storesInto {p : Package} (h : (q.run db).2.packages.row k = some p) :
    db.packages.row k = some p ∨ ∃ f, (Call.db q).storesInto p f := by
  apply (DbCall.row_or_records h).imp_right
  intro hrecords
  unfold Call.records at hrecords
  split at hrecords
  next p' f m hq =>
    cases hq
    split at hrecords
    · exact ⟨f, Option.some.inj hrecords, rfl⟩
    · cases hrecords
  next p' f m hq =>
    cases hq
    exact ⟨f, Option.some.inj hrecords, rfl⟩
  next p' f m _ _ hq =>
    cases hq
    exact ⟨f, Option.some.inj hrecords, rfl⟩
  next => cases hrecords

/-- A membership that a call leaves was there, or came with a package it stores. -/
theorem DbCall.member_or_storesInto {takes : FeedName → String → Prop}
    (hq : (Call.db q).Admitted takes) (h : ((q.run db).2.feedPackages.row (f, k)).isSome) :
    (db.feedPackages.row (f, k)).isSome ∨ ∃ p, p.key = k ∧ (Call.db q).storesInto p f := by
  by_cases hbrings : q.brings (f, k)
  · rcases hq with hstoreless | ⟨p, g, hstores, -⟩
    · cases q <;> first | exact hbrings.elim | exact hstoreless.elim
    · cases q <;> first
        | exact hstores.elim
        | (obtain ⟨rfl, rfl⟩ := Prod.mk.inj hbrings
           exact .inr ⟨_, rfl, rfl, rfl⟩)
  · exact .inl (DbCall.member_run hbrings h)

end Rows

section Protocol

variable {T : Type} [DecidableEq T] {takes : T → FeedName → String → Prop}

/-- The rows of the store, and the events they came with: each row was stored by a task that took
its id. -/
structure Reserving (takes : T → FeedName → String → Prop) (w : StoreWorld T) : Prop where
  named : ∀ k p, w.state.db.packages.row k = some p → p.Named
  stored : ∀ k p, w.state.db.packages.row k = some p →
    ∃ e ∈ w.past, ∃ f, e.call.storesInto p f
  member : ∀ f k, (w.state.db.feedPackages.row (f, k)).isSome →
    ∃ e ∈ w.past, ∃ p, p.key = k ∧ e.call.storesInto p f
  admitted : ∀ e ∈ w.past, e.call.Admitted (takes e.thread)

def reserving (takes : T → FeedName → String → Prop) :
    Protocol T Call Call.Answer Bool (Store T) where
  inv := Reserving takes
  guar _ _ _ := True
  allow _ _ _ := True

/-- An admitted call leaves the rows accounted for. -/
theorem Reserving.step {w w' : StoreWorld T} {t : T} {c : Call} {o : Bool} {r : c.Answer}
    (hw : Reserving takes w) (hc : c.Admitted (takes t))
    (hp : (server T).perform t c o w = some (r, w')) : Reserving takes w' := by
  obtain ⟨hexec, hpast⟩ := (server T).perform_eq_some.mp hp
  have hdb := (Store.exec_files hexec).1
  have holder : ∀ e ∈ w.past, e ∈ w'.past := fun e he => hpast ▸ List.mem_cons_of_mem _ he
  have hlast : (⟨t, c, o, r⟩ : StoreEvent T) ∈ w'.past := hpast ▸ List.mem_cons_self
  have hrows : ∀ k p, w'.state.db.packages.row k = some p →
      w.state.db.packages.row k = some p ∨ ∃ f, c.storesInto p f := by
    intro k p hrow
    rw [hdb] at hrow
    cases c with
    | db q =>
      cases o with
      | true => exact .inl hrow
      | false => exact DbCall.row_or_storesInto hrow
    | _ => exact .inl hrow
  have hmembers : ∀ f k, (w'.state.db.feedPackages.row (f, k)).isSome →
      (w.state.db.feedPackages.row (f, k)).isSome ∨ ∃ p, p.key = k ∧ c.storesInto p f := by
    intro f k hrow
    rw [hdb] at hrow
    cases c with
    | db q =>
      cases o with
      | true => exact .inl hrow
      | false => exact DbCall.member_or_storesInto hc hrow
    | _ => exact .inl hrow
  constructor
  · intro k p hrow
    rcases hrows k p hrow with hold | ⟨f, hstores⟩
    · exact hw.named k p hold
    · exact (hc.of_storesInto hstores).1
  · intro k p hrow
    rcases hrows k p hrow with hold | ⟨f, hstores⟩
    · obtain ⟨e, he, hstores⟩ := hw.stored k p hold
      exact ⟨e, holder e he, hstores⟩
    · exact ⟨_, hlast, f, hstores⟩
  · intro f k hrow
    rcases hmembers f k hrow with hold | ⟨p, hk, hstores⟩
    · obtain ⟨e, he, hstores⟩ := hw.member f k hold
      exact ⟨e, holder e he, hstores⟩
    · exact ⟨_, hlast, p, hk, hstores⟩
  · intro e he
    rw [hpast] at he
    rcases List.mem_cons.mp he with rfl | he
    · exact hc
    · exact hw.admitted e he

variable {t : T} {α : Type}

theorem reserving_of_calls {x : Op α} (h : x.run.Calls (Call.Admitted (takes t))) :
    (reserving takes).Maintains (server T) t (fun _ => True) x :=
  Maintains.of_calls (fun _ _ _ _ _ _ => trivial)
    (fun _ hc _ _ hinv _ _ _ hp _ => ⟨hinv.step hc hp, trivial, trivial⟩) h

theorem reserving_of_storeless {x : Op α} (h : x.run.Calls Call.storeless) :
    (reserving takes).Maintains (server T) t (fun _ => True) x :=
  reserving_of_calls (h.mono fun _ => Or.inl)

end Protocol

section Sections

variable (site : Site) (feed : FeedName) (k : VersionKey)

theorem calls_storeless_of_purges {α : Type} {x : Op α} (h : x.run.Calls (Call.purges k)) :
    x.run.Calls Call.storeless :=
  h.mono fun _ => Call.storeless_of_purges

theorem storeless_purgeLocked : (purgeLocked feed k).run.Calls Call.storeless := by
  apply calls_bind (calls_query trivial)
  intro removed
  apply calls_bind (calls_query trivial)
  intro holders
  exact calls_bind (calls_onlyIf (calls_storeless_of_purges k (calls_purgeGlobalData k)))
    fun _ => calls_pure _

theorem storeless_purgePlannedLocked : (purgePlannedLocked feed k).run.Calls Call.storeless := by
  apply calls_bind (calls_query trivial)
  intro m
  cases m with
  | none => exact calls_pure _
  | some m =>
    dsimp only
    split_ifs
    · exact calls_pure _
    · exact storeless_purgeLocked feed k

theorem storeless_sweepLocked : (sweepLocked k).run.Calls Call.storeless := by
  apply calls_bind (calls_attempt (calls_query trivial))
  intro holders
  split
  · apply calls_bind (calls_unwrapOr (calls_query trivial))
    intro still
    exact calls_onlyIf (calls_storeless_of_purges k (calls_purgeGlobalData k))
  · exact calls_pure _

end Sections

section Index

variable {takes : FeedName → String → Prop} (site : Site) (feed : FeedName)
variable (incoming : Incoming site.sha512) (options : IndexOptions)

/-- What a push may store: the package that came in, or the one that is stored, of a taken id. -/
def Storable (takes : FeedName → String → Prop) (feed : FeedName) (p : Package) : Prop :=
  p.Named ∧ takes feed p.id

variable {site feed incoming}

theorem admitted_of_upkeep {k : VersionKey} {c : Call} (h : c.upkeep k) : c.Admitted takes :=
  .inl (Call.storeless_of_purges (Call.purges_of_upkeep h))

theorem admitted_of_quiet {k : VersionKey} {c : Call} (h : c.quiet k) : c.Admitted takes :=
  admitted_of_upkeep (Call.upkeep_of_quiet h)

theorem admitted_indexNew (h : Storable takes feed incoming.package) :
    (indexNew site feed incoming options).run.Calls (Call.Admitted takes) := by
  have stored := calls_storePayload incoming.package.key incoming.bytes incoming.sidecars
  apply calls_bind (stored.mono fun _ => admitted_of_upkeep)
  intro _
  apply calls_bind (calls_attempt (calls_query (.inr ⟨_, _, ⟨rfl, rfl⟩, h⟩)))
  intro added
  cases added with
  | ok _ => exact calls_pure _
  | error e =>
    apply calls_bind (calls_unwrapOr (calls_query (.inl trivial)))
    intro holders
    apply calls_bind (calls_onlyIf _) fun _ => calls_throw e
    exact calls_bind (calls_ignore (calls_query (.inl trivial)))
      fun _ => calls_ignore (calls_file (.inl trivial))

theorem admitted_indexJoin (existing : PackageAt incoming.package.key) (payloadPresent : Bool)
    (h : Storable takes feed existing.1) :
    (indexJoin site feed incoming options existing payloadPresent).run.Calls
      (Call.Admitted takes) := by
  have stored := calls_storePayload incoming.package.key incoming.bytes incoming.sidecars
  apply calls_bind calls_refuseIf
  intro _
  apply calls_bind (calls_onlyIf (stored.mono fun _ => admitted_of_upkeep))
  intro _
  exact calls_bind (calls_query (.inr ⟨_, _, ⟨rfl, rfl⟩, h⟩)) fun _ => calls_pure _

theorem admitted_swap {m : Membership} (swap : Swap) {p : Package} (h : Storable takes feed p) :
    (swap.replace p feed m).run.Calls (Call.Admitted takes) := by
  cases swap with
  | any => exact calls_bind (calls_query (.inr ⟨_, _, ⟨rfl, rfl⟩, h⟩)) fun _ => calls_pure _
  | pendingOnly dropFiles others => exact calls_query (.inr ⟨_, _, ⟨rfl, rfl⟩, h⟩)

theorem admitted_overwrite {m : Membership} (bytes : Content) (p existing : Package)
    (sidecars : Sidecars) (swap : Swap) (h : Storable takes feed p) :
    (overwrite feed bytes p existing m sidecars swap).run.Calls (Call.Admitted takes) := by
  have upkeep {α : Type} {x : Op α} (hx : x.run.Calls (Call.upkeep p.key)) :
      x.run.Calls (Call.Admitted takes) := hx.mono fun _ => admitted_of_upkeep
  have sidecar (kind : AuxFile) (present : Bool) :=
    upkeep ((calls_readSidecar p.key kind present).mono fun _ => Call.upkeep_of_quiet)
  apply calls_bind (upkeep (calls_keepAside _))
  intro backup
  apply calls_bind (sidecar _ _)
  intro oldNuspec
  apply calls_bind (sidecar _ _)
  intro oldReadme
  apply calls_bind (sidecar _ _)
  intro oldIcon
  apply calls_bind (calls_file (.inl trivial))
  intro _
  apply calls_bind (calls_attempt (calls_bind (upkeep (calls_storeSidecars _ _))
    fun _ => admitted_swap swap h))
  intro swapped
  cases swapped with
  | ok dropped => exact calls_pure _
  | error e => exact calls_bind (upkeep (calls_putBack _ _ _ _ _)) fun _ => calls_throw _

theorem admitted_indexOverwrite (existing : PackageAt incoming.package.key)
    (previous : Membership) (payloadPresent : Bool) (hin : Storable takes feed incoming.package)
    (hstored : Storable takes feed existing.1) :
    (indexOverwrite site feed incoming options existing previous payloadPresent).run.Calls
      (Call.Admitted takes) := by
  have quiet {α : Type} {x : Op α} (hx : x.run.Calls (Call.quiet incoming.package.key)) :
      x.run.Calls (Call.Admitted takes) := hx.mono fun _ => admitted_of_quiet
  apply calls_bind (quiet (calls_checkOverwrite _ _ _ _ _))
  intro _
  apply calls_bind (quiet (calls_checkUnshared _ _ _ _))
  intro _
  dsimp only
  split_ifs
  · exact calls_bind (admitted_swap _ hstored) fun _ => calls_pure _
  · apply calls_bind (admitted_overwrite _ _ _ _ _ hin)
    intro dropped
    apply calls_bind (calls_onlyIf (quiet (calls_deleteUnreferencedBlobs _ _)))
    intro _
    exact calls_bind (calls_onlyIf (quiet (calls_purgeSymbols _))) fun _ => calls_pure _

end Index

section Locked

variable {T : Type} [DecidableEq T] {takes : T → FeedName → String → Prop} {t : T}
variable {site : Site} {feed : FeedName} {incoming : Incoming site.sha512}

/-- Whether an id is taken does not depend on its case. -/
def IgnoresCase (takes : T → FeedName → String → Prop) : Prop :=
  ∀ t f a b, toAsciiLowercase a = toAsciiLowercase b → takes t f a → takes t f b

omit [DecidableEq T] in
theorem Storable.of_named (hcase : IgnoresCase takes) (h : Storable (takes t) feed incoming.package)
    {p : Package} (hkey : p.key = incoming.package.key) (hp : p.Named) :
    Storable (takes t) feed p := by
  have hid : toAsciiLowercase incoming.package.id = toAsciiLowercase p.id := by
    rw [h.1, hp, hkey]
  exact ⟨hp, hcase t feed _ _ hid h.2⟩

theorem named_dropRemains {k : VersionKey} (existing : Option (PackageAt k))
    (h : ∀ p ∈ existing, p.1.Named) (w : StoreWorld T) :
    (reserving takes).Safe (server T) t (dropRemains k existing).run
      (fun result _ => ∀ left, result = .ok left → ∀ p ∈ left, p.1.Named) w := by
  cases existing with
  | none =>
    intro left hleft p hp
    obtain rfl := Except.ok.inj hleft
    cases hp
  | some stored =>
    have hholders : (query (.feedCount k)).run.Calls Call.storeless := calls_query trivial
    apply Safe.bindExcept
    apply (reserving_of_storeless hholders w trivial).mono
    intro holders w _
    cases holders with
    | error e =>
      intro left hleft
      cases hleft
    | ok holders =>
      dsimp only
      split_ifs
      · apply Safe.bindExcept
        apply (reserving_of_storeless (calls_storeless_of_purges k (calls_purgeGlobalData k))
          w trivial).mono
        intro purged w _
        cases purged with
        | error e =>
          intro left hleft
          cases hleft
        | ok _ =>
          intro left hleft p hp
          obtain rfl := Except.ok.inj hleft
          cases hp
      · intro left hleft p hp
        obtain rfl := Except.ok.inj hleft
        exact h p hp

/-- The part of a push under the version's lock: what it finds stored is named like what came in. -/
theorem reserving_indexLocked (hcase : IgnoresCase takes) (options : IndexOptions)
    (h : Storable (takes t) feed incoming.package) :
    (reserving takes).Maintains (server T) t (fun _ => True)
      (indexLocked site feed incoming options) := by
  intro w _
  apply Safe.bindExcept
  apply Safe.call (A := fun _ => True) (fun _ _ _ _ _ _ => trivial) trivial
  intro w₁ _ hinv o found w₂ hp _
  have hread : Call.Admitted (takes t) (.db (.getPackageData incoming.package.key)) := .inl trivial
  have hinv₂ := hinv.step hread hp
  refine ⟨hinv₂, trivial, ?_⟩
  have hfound : ∀ existing, found = .ok existing → ∀ p ∈ existing, p.1.Named := by
    intro existing hexisting p hmem
    obtain ⟨hr, -⟩ | ⟨hr, -⟩ := Store.exec_query (t := t) ((server T).perform_eq_some.mp hp).1
    · rw [hr] at hexisting
      cases hexisting
    · have hrow : w₁.state.db.getPackageData incoming.package.key = some p := by
        rw [← Option.mem_def.mp hmem]
        exact Except.ok.inj (hr.symm.trans hexisting)
      exact hinv.named _ _ ((w₁.state.db.getPackageData_eq_some _ p).mp hrow)
  cases found with
  | error e => trivial
  | ok existing =>
    have hmembership : (query (.getMembership feed incoming.package.key)).run.Calls
        Call.storeless := calls_query trivial
    apply Safe.bindExcept
    apply (reserving_of_storeless hmembership w₂ trivial).mono
    intro previous w₃ _
    cases previous with
    | error e => trivial
    | ok previous =>
      apply Safe.bindExcept
      apply (named_dropRemains existing (hfound existing rfl) w₃).mono
      intro left w₄ hleft
      cases left with
      | error e => trivial
      | ok left =>
        apply reserving_of_calls (t := t) _ w₄ trivial
        have hstray : (dropStray feed incoming.package.key left previous).run.Calls
            (Call.Admitted (takes t)) := by
          unfold dropStray
          split_ifs
          · exact calls_bind (calls_query (.inl trivial)) fun _ => calls_pure _
          · exact calls_pure _
        apply calls_bind hstray
        intro previous
        cases left with
        | none => exact admitted_indexNew options h
        | some stored =>
          have hstored : Storable (takes t) feed stored.1 :=
            h.of_named hcase stored.2 (hleft _ rfl stored rfl)
          apply calls_bind (calls_call (.inl trivial))
          intro payloadPresent
          cases previous with
          | none => exact admitted_indexJoin options stored payloadPresent hstored
          | some previous =>
            exact admitted_indexOverwrite options stored previous payloadPresent h hstored

end Locked

section Runs

variable {T : Type} [DecidableEq T] {takes : T → FeedName → String → Prop} {t : T} {site : Site}

/-- The sections of an operation that indexes into feeds that take the ids. -/
theorem reserving_parts (hcase : IgnoresCase takes)
    {pushes : FeedName → Content → IndexOptions → Prop}
    (hpushes : ∀ f bytes options, pushes f bytes options → ∀ id,
      (∀ r ∈ options.reservedElsewhere, r.covers id = false) → takes t f id) :
    Parts site pushes (fun _ => False)
      (fun {α : Type} (x : Op α) => (reserving takes).Maintains (server T) t (fun _ => True) x) := by
  have closed := closed_maintains (ε := Error) (server T) (reserving takes) t fun _ => True
  have locked {α : Type} {k : VersionKey} {x : Op α} (hx : x.run.Calls Call.storeless) :
      (reserving takes).Maintains (server T) t (fun _ => True) (withVersionLock k x) :=
    reserving_of_storeless (calls_withVersionLock trivial trivial hx)
  constructor
  · intro q hq
    exact reserving_of_storeless (calls_query (Call.storeless_of_unlocked hq))
  · intro f k
    exact reserving_of_storeless (calls_call trivial)
  · intro f k
    exact locked (storeless_purgeLocked f k)
  · intro f k
    exact locked (storeless_purgePlannedLocked f k)
  · intro k
    exact locked (storeless_sweepLocked k)
  · intro f bytes options incoming hpush haccept
    have hstorable : Storable (takes t) f incoming.package := by
      constructor
      · obtain ⟨a, readme, icon, -, -, -, hpackage, -⟩ := accept_spec site haccept
        rw [hpackage]
        rfl
      · exact hpushes f bytes options hpush _ (accept_unreserved site haccept)
    exact closed.bind (reserving_of_storeless (calls_call trivial)) fun _ =>
      closed.bind (closed.attempt (reserving_indexLocked hcase options hstorable)) fun result =>
        closed.bind (reserving_of_storeless (calls_call trivial)) fun _ => closed.result _
  · intro f v shown
    exact locked ((calls_approveLocked site f v shown).mono fun _ => Call.storeless_of_approves)
  · intro f id versions shown
    exact reserving_of_storeless (calls_withVersionLocks (fun _ => trivial) (fun _ => trivial)
      ((calls_approveManyLocked site f id versions shown).mono
        fun _ => Call.storeless_of_approves))
  · intro source target k mode h
    exact h.elim

/-- The operation indexes into a feed of the configuration, under the options that the feed has. -/
def Operation.StoresInto (feeds : List ResolvedFeed) : Operation → Prop
  | .push feed _ options _ =>
    ∃ f ∈ feeds, f.name = feed ∧ options.reservedElsewhere = f.reservedElsewhere
  | .mirror feed _ options _ _ _ =>
    ∃ f ∈ feeds, f.name = feed ∧ options.reservedElsewhere = f.reservedElsewhere
  | .migrate feed _ options _ _ _ =>
    ∃ f ∈ feeds, f.name = feed ∧ options.reservedElsewhere = f.reservedElsewhere
  | _ => False

def Operation.Takes (feeds : List ResolvedFeed) (op : Operation) (f : FeedName) (id : String) :
    Prop :=
  (∃ bytes options, op.indexes f bytes options) ∧
    ∃ feed ∈ feeds, feed.name = f ∧ ∀ r ∈ feed.reservedElsewhere, r.covers id = false

variable {feeds : List ResolvedFeed} {ops : T → Operation}

omit [DecidableEq T] in
theorem ignoresCase_takes : IgnoresCase fun t : T => (ops t).Takes feeds := by
  rintro t f a b hab ⟨hindexes, feed, hfeed, hname, hcovers⟩
  refine ⟨hindexes, feed, hfeed, hname, ?_⟩
  intro r hr
  rw [← hcovers r hr]
  simp only [ReservedPrefix.covers, idHasPrefix, hab]

theorem Operation.takes_of_indexes {op : Operation} (hop : op.StoresInto feeds) {f : FeedName}
    {bytes : Content} {options : IndexOptions} (h : op.indexes f bytes options) (id : String)
    (hcovers : ∀ r ∈ options.reservedElsewhere, r.covers id = false) : op.Takes feeds f id := by
  refine ⟨⟨bytes, options, h⟩, ?_⟩
  cases op with
  | push feed bytes' options' planned =>
    obtain ⟨g, hg, hname, helsewhere⟩ := hop
    obtain ⟨rfl, -, rfl⟩ := h
    exact ⟨g, hg, hname, helsewhere ▸ hcovers⟩
  | mirror feed v copy unlisted failedLately download =>
    obtain ⟨g, hg, hname, helsewhere⟩ := hop
    cases download with
    | error e => exact h.elim
    | ok downloaded =>
      obtain ⟨rfl, -, rfl⟩ := h
      exact ⟨g, hg, hname, helsewhere ▸ hcovers⟩
  | migrate feed v copy overwrite unlisted download =>
    obtain ⟨g, hg, hname, helsewhere⟩ := hop
    cases download with
    | error e => exact h.elim
    | ok downloaded =>
      obtain ⟨rfl, -, rfl⟩ := h
      exact ⟨g, hg, hname, helsewhere ▸ hcovers⟩
  | _ => exact hop.elim

/-- From an empty store, the rows of every state that is reached were stored by operations into
feeds that took their ids. -/
theorem reserving_run (hops : ∀ t, (ops t).StoresInto feeds)
    {c : Config T Call Call.Answer Bool (Store T)}
    (h : (server T).Reaches (fun _ _ _ => True) (serving site (Store.empty T) ops) c) :
    Reserving (fun t => (ops t).Takes feeds) c.world := by
  have start : (reserving fun t : T => (ops t).Takes feeds).Keeps (server T)
      (serving site (Store.empty T) ops) := by
    constructor
    · constructor
      · intro k p hrow
        cases hrow
      · intro k p hrow
        cases hrow
      · intro f k hrow
        cases hrow
      · intro e he
        cases he
    · intro t
      have closed := closed_maintains (ε := Error) (server T)
        (reserving fun t : T => (ops t).Takes feeds) t fun _ => True
      have parts : Parts site (ops t).indexes (fun _ => False) (fun {α : Type} (x : Op α) =>
          (reserving fun t : T => (ops t).Takes feeds).Maintains (server T) t (fun _ => True) x) :=
        reserving_parts ignoresCase_takes fun f bytes options hindexes id =>
          Operation.takes_of_indexes (hops t) hindexes id
      have hrun := parts.run closed (ops t) (fun _ _ _ => id) fun target htransfers => by
        cases hop : ops t with
        | push | mirror | migrate => simp [hop, Operation.transfersTo] at htransfers
        | _ => exact (hop ▸ hops t).elim
      exact Safe.bind ((hrun _ trivial).mono fun _ _ _ => trivial)
  exact (start.reaches h).1

/-- For feeds that were resolved together: an id is under the prefixes of one feed at most, and
some feed takes it. Whatever pushes, mirror fetches and migrations index into the feeds of an empty
store, all that is stored of an id under a prefix of feed `f` was stored for `f`. -/
theorem reserved_id_belongs {config : FeedsConfig} (h : resolvedFeeds config = .ok feeds) :
    (∀ id, ∀ f ∈ feeds, ∀ g ∈ feeds, f.reserves id = true → g.reserves id = true → f = g) ∧
      (∀ id, ∃ f ∈ feeds, ∀ r ∈ f.reservedElsewhere, r.covers id = false) ∧
      ∀ (T : Type) [DecidableEq T] (site : Site) (ops : T → Operation),
        (∀ t, (ops t).StoresInto feeds) → ∀ c : Config T Call Call.Answer Bool (Store T),
        (server T).Reaches (fun _ _ _ => True) (serving site (Store.empty T) ops) c →
        ∀ f ∈ feeds, ∀ k p, c.world.state.db.packages.row k = some p → f.reserves p.id = true →
          (∃ e ∈ c.world.past, e.call.storesInto p f.name) ∧
          (∀ e ∈ c.world.past, ∀ q g, e.call.storesInto q g → q.key = k →
            g = f.name ∧ ∃ bytes options, (ops e.thread).indexes f.name bytes options) ∧
          ∀ g, (c.world.state.db.feedPackages.row (g, k)).isSome → g = f.name := by
  have hs := resolved_of_ok h
  refine ⟨fun id f hf g hg => hs.reserved_once hf hg, hs.exists_taking, ?_⟩
  intro T _ site ops hops c hc f hf k p hrow hid
  have hw := reserving_run hops hc
  have hevent : ∀ e ∈ c.world.past, ∀ q g, e.call.storesInto q g → q.key = k →
      g = f.name ∧ ∃ bytes options, (ops e.thread).indexes f.name bytes options := by
    intro e he q g hstores hk
    obtain ⟨hnamed, hindexes, feed, hfeed, rfl, hcovers⟩ := (hw.admitted e he).of_storesInto hstores
    have hlower : toAsciiLowercase p.id = toAsciiLowercase q.id := by
      rw [hw.named k p hrow, hnamed, hk, c.world.state.db.key_of_row hrow]
    have hid' : f.reserves q.id = true := by
      rw [← hid]
      simp only [ResolvedFeed.reserves, idHasPrefix, hlower]
    have hsame : feed = f := by
      by_contra hne
      obtain ⟨r, hr, hr'⟩ := (hs.refused_iff hfeed).mpr ⟨f, hf, fun heq => hne heq.symm, hid'⟩
      rw [hcovers r hr] at hr'
      cases hr'
    subst hsame
    exact ⟨rfl, hindexes⟩
  refine ⟨?_, hevent, ?_⟩
  · obtain ⟨e, he, g, hstores⟩ := hw.stored k p hrow
    obtain ⟨rfl, -⟩ := hevent e he p g hstores (c.world.state.db.key_of_row hrow)
    exact ⟨e, he, hstores⟩
  · intro g hmember
    obtain ⟨e, he, q, hk, hstores⟩ := hw.member g k hmember
    exact (hevent e he q g hstores hk).1

end Runs

def sampleFeedsConfig : FeedsConfig where
  feeds := [{ name := "a", reservedIdPrefixes := [" LIB."] }, { name := "b" }]

def sampleFeeds : List ResolvedFeed :=
  [⟨"a", "/a", none, ["LIB."], []⟩, ⟨"b", "/b", none, [], [⟨"LIB.", "a"⟩]⟩]

/-- Both feeds are sent a build of `Lib`. -/
def sampleReserved : Fin 2 → Operation
  | 0 => .push "b" [2] { sampleOptions [] with reservedElsewhere := [⟨"LIB.", "a"⟩] } []
  | 1 => .push "a" [1] (sampleOptions []) []

/-- The push into `b` is refused, and the row that is there came with the push into `a`. -/
theorem reserved_id_belongs_sample :
    ∃ c, (server (Fin 2)).run (serving sampleSite (Store.empty _) sampleReserved)
        (calls 0 1 ++ calls 1 8) = some c ∧
      (∃ p, c.world.state.db.packages.row sampleKey = some p) ∧
      ∀ g, (c.world.state.db.feedPackages.row (g, sampleKey)).isSome → g = "a" := by
  have hconfig : resolvedFeeds sampleFeedsConfig = .ok sampleFeeds := by decide +kernel
  have hfinal : ((server (Fin 2)).run (serving sampleSite (Store.empty _) sampleReserved)
      (calls 0 1 ++ calls 1 8)).map (fun c => (c.world.state.db.packages.row sampleKey).map (·.id)) =
      some (some "Lib") := by decide +kernel
  obtain ⟨c, hrun, hrow⟩ := Option.map_eq_some_iff.mp hfinal
  obtain ⟨p, hp, hid⟩ := Option.map_eq_some_iff.mp hrow
  have hops : ∀ t, (sampleReserved t).StoresInto sampleFeeds := by
    intro t
    match t with
    | 0 => exact ⟨⟨"b", "/b", none, [], [⟨"LIB.", "a"⟩]⟩, by simp [sampleFeeds], rfl, rfl⟩
    | 1 => exact ⟨⟨"a", "/a", none, ["LIB."], []⟩, by simp [sampleFeeds], rfl, rfl⟩
  have hreserves : ResolvedFeed.reserves ⟨"a", "/a", none, ["LIB."], []⟩ "Lib" = true := by
    decide +kernel
  have hbelongs := (reserved_id_belongs hconfig).2.2 (Fin 2) sampleSite sampleReserved hops c
    (Machine.Reaches.of_run hrun) _ List.mem_cons_self sampleKey p hp (hid ▸ hreserves)
  exact ⟨c, hrun, ⟨p, hp⟩, hbelongs.2.2⟩

end YaNuget
