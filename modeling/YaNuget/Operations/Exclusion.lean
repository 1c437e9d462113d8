import YaNuget.Operations.Tombstones

/-!
# Memberships and tombstones exclude each other

A feed that holds a version has no tombstone for it, between operations: a push
takes the tombstone away, and a copy of an upstream looks for it first. A
promotion, copy or move between feeds does neither, so it has to find none. The
histories are those of a server that completes one operation after the other,
and is stopped for a rename of a feed or a restore of a backup.
-/
namespace YaNuget

open Concurrency Op Fallible

section Database

/-- Not both a membership and a tombstone under `key`. -/
def Database.Apart (db : Database) (key : FeedName × VersionKey) : Prop :=
  (db.feedPackages.row key).isSome → db.tombstones.row key = none

/-- No feed holds a version it has a tombstone for. -/
def Database.Exclusive (db : Database) : Prop := ∀ key, db.Apart key

/-- The query may make the version of `key` a member of its feed. -/
def DbCall.brings : DbCall → FeedName × VersionKey → Prop
  | .addVersion p f _, key | .replaceVersion p f _, key
  | .replacePendingVersion p f _ _ _, key => key = (f, p.key)
  | .addMembership f k _, key => key = (f, k)
  | .renameFeed _ _ _, _ => True
  | _, _ => False

variable {db db' : Database} {key : FeedName × VersionKey} {f : FeedName} {k : VersionKey}

theorem Database.isTombstoned_eq_false :
    db.isTombstoned f k = false ↔ db.tombstones.row (f, k) = none := by
  simp [isTombstoned]

theorem Database.Apart.of_rows (h : db.Apart key)
    (hmembers : (db'.feedPackages.row key).isSome → (db.feedPackages.row key).isSome)
    (htombstones : db.tombstones.row key = none → db'.tombstones.row key = none) :
    db'.Apart key :=
  fun hmember => htombstones (h (hmembers hmember))

/-- Where there is no tombstone, only a removal for good or a rename puts one. -/
theorem DbCall.no_tombstone_run {q : DbCall} (hrename : ¬ (Call.db q).renames)
    (hremove : ∀ f k, q = .removeMembershipForGood f k → key ≠ (f, k))
    (h : db.tombstones.row key = none) : (q.run db).2.tombstones.row key = none := by
  rcases DbCall.tombstones_run db q with ⟨f, k, rfl⟩ | ⟨f, k, rfl⟩ | h' | same
  · simp only [DbCall.run, Database.removeMembershipForGood]
    split_ifs
    · simpa [hremove f k rfl] using h
    · exact h
  · simp only [DbCall.run, Database.clearTombstone, Table.row_erase]
    split_ifs
    · rfl
    · exact h
  · exact (hrename h').elim
  · rwa [same]

/-- A membership that a query leaves was there, unless the query may have brought it in. -/
theorem DbCall.member_run {q : DbCall} (hq : ¬ q.brings key)
    (hmember : ((q.run db).2.feedPackages.row key).isSome) : (db.feedPackages.row key).isSome := by
  cases q with
  | addVersion p f m =>
    rcases db.addVersion_cases f p m with ⟨e, he⟩ | ⟨_, db', he, -, -, hm, -⟩
    · simpa [DbCall.run, he] using hmember
    · have hne : key ≠ (f, p.key) := hq
      simpa [DbCall.run, he, hm, hne] using hmember
  | replaceVersion p f m =>
    have hne : key ≠ (f, p.key) := hq
    simpa [DbCall.run, hne] using hmember
  | replacePendingVersion p f m dropFiles others =>
    rcases db.replacePendingVersion_cases f p m dropFiles others with
      ⟨e, he⟩ | ⟨_, db', he, -, -, hm, -⟩
    · simpa [DbCall.run, he] using hmember
    · have hne : key ≠ (f, p.key) := hq
      rcases hm key with ⟨-, hnone⟩ | ⟨m₁, m₂, hsome, -⟩
      · simp [DbCall.run, he, hnone] at hmember
      · rw [Database.row_feedPackages_replaceRows, if_neg hne] at hsome
        simp [hsome]
  | addMembership f k m =>
    rcases db.insertMembership_cases f k m with ⟨e, he⟩ | ⟨hp, he, -⟩
    · simpa [DbCall.run, he] using hmember
    · have hne : key ≠ (f, k) := hq
      simpa [DbCall.run, he, hne] using hmember
  | deletePackageData k =>
    rw [DbCall.run, Database.row_feedPackages_deletePackageData] at hmember
    split_ifs at hmember
    · simp at hmember
    · exact hmember
  | removeMembership f k =>
    rw [DbCall.run, Database.row_feedPackages_removeMembership] at hmember
    split_ifs at hmember
    · simp at hmember
    · exact hmember
  | removeMembershipForGood f k =>
    rw [DbCall.run, Database.row_feedPackages_removeMembershipForGood] at hmember
    split_ifs at hmember
    · simp at hmember
    · exact hmember
  | approveMembership f k | setListed f k on | setEnabled f k on | setPinned f k on =>
    rw [DbCall.run] at hmember
    first
      | rw [Database.approveMembership, Database.row_updateMembership] at hmember
      | rw [Database.setListed, Database.row_updateMembership] at hmember
      | rw [Database.setEnabled, Database.row_updateMembership] at hmember
      | rw [Database.setPinned, Database.row_updateMembership] at hmember
    split_ifs at hmember
    · simpa using hmember
    · exact hmember
  | updateMemberships f ks change =>
    rcases db.updateMemberships_cases f ks change with ⟨e, he⟩ | ⟨n, db', he, -, -, hm⟩
    · simpa [DbCall.run, he] using hmember
    · simp only [DbCall.run, he, hm] at hmember
      split_ifs at hmember
      · simpa using hmember
      · exact hmember
  | renameFeed src dst hold => exact (hq trivial).elim
  | addFile k file => simpa [DbCall.run] using hmember
  | addSymbol s k => simpa [DbCall.run] using hmember
  | _ => exact hmember

theorem DbCall.apart_run {q : DbCall} (hq : ¬ q.brings key) (h : db.Apart key) :
    (q.run db).2.Apart key := by
  by_cases hremove : q = .removeMembershipForGood key.1 key.2
  · subst hremove
    intro hmember
    simp [DbCall.run] at hmember
  · apply h.of_rows (DbCall.member_run hq)
    apply DbCall.no_tombstone_run
    · intro hrename
      cases q <;> first | exact hq trivial | exact hrename.elim
    · rintro f k rfl rfl
      exact hremove rfl

/-- What `dst` holds after a rename has no tombstone there, and `src` keeps nothing. -/
theorem Database.Exclusive.renameFeed (h : db.Exclusive) (src dst : FeedName) (hold : Bool) :
    (db.renameFeed src dst hold).2.Exclusive := by
  unfold Database.renameFeed
  split_ifs
  · exact h
  rintro ⟨f, k⟩ hmember
  have hrow : ∀ T : Table (FeedName × VersionKey) Unit, f ≠ src → f ≠ dst →
      (Database.renameRows T src dst id).row (f, k) = T.row (f, k) := by
    intro T hsrc hdst
    simp only [Database.renameRows, Table.row_ofKeys, Database.renamedRow, hsrc, hdst, if_false]
    split_ifs with hmem
    · rfl
    · exact (T.row_of_not_mem fun h => hmem (Finset.mem_union_left _ h)).symm
  rw [Table.row_modify]
  by_cases hsrc : f = src
  · simp [hsrc]
  by_cases hdst : f = dst
  · subst hdst
    simp [hmember]
  rw [hrow _ hsrc hdst, h (f, k) ?_]
  · simp
  · rcases Database.isSome_of_row_renameRows hmember with held | held
    · exact held
    · simp only [Database.renameRows, Table.row_ofKeys, Database.renamedRow, hsrc, hdst,
        if_false] at hmember
      split_ifs at hmember
      · exact hmember
      · simp at hmember

end Database

/-- The condition on the calls of an operation: what is brought into a feed by
a promotion, copy or move has no tombstone there; a push fails to take away no
tombstone, and a migration to see none. -/
def Heeds (op : Operation) (db : Database) : (c : Call) → c.Answer → Prop
  | .db (.addMembership f k _), .ok _ => db.isTombstoned f k = false
  | .db (.clearTombstone f k), .error _ => db.isTombstoned f k = false
  | .db (.isTombstoned f k), .error _ => op.migrates → db.isTombstoned f k = false
  | _, _ => True

/-- A call of an operation that nothing interferes with, under the condition. -/
def Alone (op : Operation) (s : Store Unit) (c : Call) (r : c.Answer) (s' : Store Unit) : Prop :=
  (∃ o, Store.exec () c o s = some (r, s')) ∧ Heeds op s.db c r

/-- A call that writes the rows of a push, or renames a feed. -/
def Call.stores : Call → Prop
  | .db (.addVersion _ _ _) | .db (.replaceVersion _ _ _)
  | .db (.replacePendingVersion _ _ _ _ _) | .db (.renameFeed _ _ _) => True
  | _ => False

section Step

variable {op : Operation} {s s' : Store Unit} {c : Call}
variable {feed f : FeedName} {k : VersionKey}

theorem Alone.db {r : c.Answer} (h : Alone op s c r s') : s'.db = s.db ∨
    ∃ q, c = .db q ∧ HEq r (q.run s.db).1 ∧ s'.db = (q.run s.db).2 := by
  obtain ⟨⟨o, hexec⟩, -⟩ := h
  cases c with
  | db q =>
    rcases Store.exec_query hexec with ⟨-, rfl⟩ | ⟨rfl, rfl⟩
    · exact Or.inl rfl
    · exact Or.inr ⟨q, rfl, HEq.rfl, rfl⟩
  | _ => exact Or.inl (Store.exec_files hexec).1

theorem Alone.query {q : DbCall} {r : (Call.db q).Answer} (h : Alone op s (.db q) r s') :
    (r = .error .database ∧ s' = s) ∨
      (r = (q.run s.db).1 ∧ s' = { s with db := (q.run s.db).2 }) :=
  h.1.elim fun _ hexec => Store.exec_query hexec

/-- Calls that write no rows of a push keep the two apart. -/
theorem Alone.exclusive {r : c.Answer} (h : Alone op s c r s') (hc : ¬ c.stores)
    (hs : s.db.Exclusive) : s'.db.Exclusive := by
  rcases h.db with same | ⟨q, rfl, hr, hdb⟩
  · rw [same]
    exact hs
  rw [hdb]
  by_cases hadd : ∃ f k m, q = .addMembership f k m
  · obtain ⟨f, k, m, rfl⟩ := hadd
    rcases s.db.insertMembership_cases f k m with ⟨e, he⟩ | ⟨hp, he, -⟩
    · simpa [DbCall.run, he] using hs
    obtain rfl : r = .ok () := by simpa [DbCall.run, he] using hr
    have hnone := Database.isTombstoned_eq_false.mp h.2
    intro key
    by_cases hkey : key = (f, k)
    · intro _
      simpa [DbCall.run, he, Database.upsertMembership, hkey] using hnone
    · exact DbCall.apart_run (q := .addMembership f k m) hkey (hs key)
  · intro key
    refine DbCall.apart_run (fun hbrings => ?_) (hs key)
    cases q <;> first | exact hc trivial | exact hbrings.elim | exact hadd ⟨_, _, _, rfl⟩

theorem preserves_of_spares (op : Operation) {α : Type} {x : Op α} (hx : x.run.Calls fun c => ¬ c.stores) :
    Preserves (Alone op) (fun _ _ => True) (fun s => s.db.Exclusive) x :=
  Preserves.of_calls hx fun _ hc _ _ _ hs h => ⟨trivial, h.exclusive hc hs⟩

end Step

section Index

variable {op : Operation} {feed : FeedName} {k : VersionKey} {s s' : Store Unit} {c : Call}

/-- The two exclude each other, and there is no tombstone under `key`. -/
structure Clear (key : FeedName × VersionKey) (db : Database) : Prop where
  exclusive : db.Exclusive
  no_tombstone : db.tombstones.row key = none

def Call.settles (feed : FeedName) (k : VersionKey) (c : Call) : Prop :=
  c.indexes feed k ∨ (¬ c.stores ∧ c ≠ .db (.removeMembershipForGood feed k))

theorem Call.brings_of_indexes {q : DbCall} {key : FeedName × VersionKey}
    (h : (Call.db q).indexes feed k) (hbrings : q.brings key) : key = (feed, k) := by
  cases q with
  | addVersion p f m | replaceVersion p f m | replacePendingVersion p f m dropFiles others =>
    obtain ⟨rfl, rfl⟩ := h
    exact hbrings
  | addMembership f k' m | renameFeed src dst hold => exact h.elim
  | _ => exact hbrings.elim

/-- Where a version has no tombstone, indexing it writes none. -/
theorem Alone.clear {r : c.Answer} (h : Alone op s c r s') (hc : c.settles feed k)
    (hs : Clear (feed, k) s.db) : Clear (feed, k) s'.db := by
  have no_tombstone : s'.db.tombstones.row (feed, k) = none := by
    rcases h.db with same | ⟨q, rfl, -, hdb⟩
    · rw [same]
      exact hs.no_tombstone
    rw [hdb]
    refine DbCall.no_tombstone_run ?_ ?_ hs.no_tombstone
    · rcases hc with hc | ⟨hc, -⟩
      · exact not_renames_of_indexes hc
      · cases q <;> first | exact id | exact fun _ => hc trivial
    · rintro f' k' rfl heq
      cases heq
      rcases hc with hc | ⟨-, hc⟩
      · exact hc.elim
      · exact hc rfl
  refine ⟨?_, no_tombstone⟩
  rcases hc with hc | ⟨hc, -⟩
  · intro key
    by_cases hkey : key = (feed, k)
    · intro _
      rw [hkey]
      exact no_tombstone
    · rcases h.db with same | ⟨q, rfl, -, hdb⟩
      · rw [same]
        exact hs.exclusive key
      · rw [hdb]
        exact DbCall.apart_run (fun hbrings => hkey (Call.brings_of_indexes hc hbrings))
          (hs.exclusive key)
  · exact h.exclusive hc hs.exclusive

theorem ensures_clear (op : Operation) {α : Type} {p : Program Call Call.Answer α}
    (hp : p.Calls (Call.settles feed k)) (hs : Clear (feed, k) s.db) :
    p.Ensures (Alone op) (fun _ _ => True) (fun _ s => Clear (feed, k) s.db) s :=
  Program.Ensures.of_calls hp (fun _ hc _ _ _ hs h => ⟨trivial, h.clear hc hs⟩) hs

/-- After a push, the version it is of may have both a membership and a tombstone. -/
def Arrived (feed : FeedName) (result : Except Error IndexResult) (db : Database) : Prop :=
  db.Exclusive ∨ ∃ r, result = .ok r ∧ ∀ key, key ≠ (feed, r.key) → db.Apart key

theorem Alone.addVersion {p : Package} {m : Membership} {r : Except Error Bool}
    (h : Alone op s (.db (.addVersion p feed m)) r s') (hs : s.db.Exclusive) :
    ((∃ e, r = .error e) ∧ s'.db.Exclusive) ∨
      (∃ inserted, r = .ok inserted) ∧ ∀ key, key ≠ (feed, p.key) → s'.db.Apart key := by
  rcases h.query with ⟨rfl, rfl⟩ | ⟨rfl, rfl⟩
  · exact Or.inl ⟨⟨_, rfl⟩, hs⟩
  rcases s.db.addVersion_cases feed p m with ⟨e, he⟩ | ⟨inserted, db', he, -⟩
  · exact Or.inl ⟨⟨e, by simp [DbCall.run, he]⟩, by simpa [DbCall.run, he] using hs⟩
  · refine Or.inr ⟨⟨inserted, by simp [DbCall.run, he]⟩, fun key hkey => ?_⟩
    exact DbCall.apart_run (q := .addVersion p feed m) hkey (hs key)

theorem not_stores_of_purges {c : Call} (h : c.purges k) : ¬ c.stores := by
  intro hc
  unfold Call.stores at hc
  split at hc <;> first | exact h.elim | exact hc.elim

theorem not_stores_of_upkeep {c : Call} (h : c.upkeep k) : ¬ c.stores :=
  not_stores_of_purges (Call.purges_of_upkeep h)

variable (site : Site) (incoming : Incoming site.sha512) (options : IndexOptions)

theorem ensures_indexNew (hs : s.db.Exclusive) :
    (indexNew site feed incoming options).run.Ensures (Alone op) (fun _ _ => True)
      (fun result s => Arrived feed result s.db) s := by
  have stored := preserves_of_spares op
    ((calls_storePayload incoming.package.key incoming.bytes incoming.sidecars).mono
      fun _ => not_stores_of_upkeep)
  refine ensures_bind ((stored s hs).mono fun result s₁ hs₁ => ?_)
  cases result with
  | error e => exact Or.inl hs₁
  | ok _ =>
  refine ensures_bind (ensures_attempt fun added s₂ hadd => ⟨trivial, ?_⟩)
  rcases hadd.addVersion hs₁ with ⟨⟨e, rfl⟩, hs₂⟩ | ⟨⟨inserted, rfl⟩, hs₂⟩
  · have undo : Program.Ensures (Alone op) (fun _ _ => True) (do
        let holders ← unwrapOr (query (.feedCount incoming.package.key)) 0
        onlyIf (holders = 0) do
          Fallible.ignore (query (.deletePackageData incoming.package.key))
          Fallible.ignore (file (.delete incoming.package.key))
        throw e : Op IndexResult).run (fun result s => Arrived feed result s.db) s₂ := by
      refine (preserves_of_spares op (calls_bind (calls_unwrapOr (calls_query id)) fun holders => ?_)
        s₂ hs₂).mono fun _ _ => Or.inl
      refine calls_bind (calls_onlyIf ?_) fun _ => calls_throw e
      exact calls_bind (calls_ignore (calls_query id)) fun _ => calls_ignore (calls_file id)
    exact undo
  · exact Or.inr ⟨_, rfl, hs₂⟩

theorem ensures_indexJoin (existing : PackageAt incoming.package.key) (payloadPresent : Bool)
    (hs : s.db.Exclusive) :
    (indexJoin site feed incoming options existing payloadPresent).run.Ensures (Alone op)
      (fun _ _ => True) (fun result s => Arrived feed result s.db) s := by
  have refused := preserves_of_spares op (calls_refuseIf (φ := fun c => ¬ c.stores)
    (p := existing.1.packageHash ≠ incoming.package.packageHash)
    (e := taken site incoming.package))
  refine ensures_bind ((refused s hs).mono fun result s₁ hs₁ => ?_)
  cases result with
  | error e => exact Or.inl hs₁
  | ok _ =>
  have stored := preserves_of_spares op (calls_onlyIf (p := (!payloadPresent) = true)
    ((calls_storePayload incoming.package.key incoming.bytes incoming.sidecars).mono
      fun _ => not_stores_of_upkeep))
  refine ensures_bind ((stored s₁ hs₁).mono fun result s₂ hs₂ => ?_)
  cases result with
  | error e => exact Or.inl hs₂
  | ok _ =>
  refine ensures_bind fun added s₃ hadd => ⟨trivial, ?_⟩
  rcases hadd.addVersion hs₂ with ⟨⟨e, rfl⟩, hs₃⟩ | ⟨⟨inserted, rfl⟩, hs₃⟩
  · exact Or.inl hs₃
  · exact Or.inr ⟨_, rfl, fun key hkey => hs₃ key (by rwa [existing.2])⟩

/-- The part under the lock: a version the feed holds already has no tombstone. -/
theorem ensures_indexLocked (hs : s.db.Exclusive) :
    (indexLocked site feed incoming options).run.Ensures (Alone op) (fun _ _ => True)
      (fun result s => Arrived feed result s.db) s := by
  have footprint := calls_indexLocked site feed incoming options
  refine ensures_bind fun existing s₁ hread => ⟨trivial, ?_⟩
  have hs₁ := hread.exclusive id hs
  cases existing with
  | error e => exact Or.inl hs₁
  | ok existing =>
  refine ensures_bind fun previous s₂ hread => ⟨trivial, ?_⟩
  have hs₂ := hread.exclusive id hs₁
  cases previous with
  | error e => exact Or.inl hs₂
  | ok previous =>
  cases previous with
  | some previous =>
    have hclear : Clear (feed, incoming.package.key) s₂.db := by
      refine ⟨hs₂, hs₂ _ ?_⟩
      rcases hread.query with ⟨hr, -⟩ | ⟨hr, rfl⟩
      · cases hr
      · have hrow : some previous = s₁.db.feedPackages.row (feed, incoming.package.key) :=
          Except.ok.inj hr
        simp [DbCall.run, ← hrow]
    have rest := ((footprint.2 (.ok existing)).2 (.ok (some previous))).mono
      fun c hc => show c.settles feed incoming.package.key from Or.inl hc
    have arrived := (ensures_clear op rest hclear).mono fun result s hs =>
      (Or.inl hs.exclusive : Arrived feed result s.db)
    exact arrived
  | none =>
    have dropped := preserves_of_spares op ((calls_dropRemains _ existing).mono
      fun _ => not_stores_of_purges)
    refine ensures_bind ((dropped s₂ hs₂).mono fun result s₃ hs₃ => ?_)
    cases result with
    | error e => exact Or.inl hs₃
    | ok existing =>
    have stray : dropStray feed incoming.package.key existing none = pure none := by
      simp [dropStray]
    dsimp only
    rw [stray]
    cases existing with
    | none => exact ensures_indexNew site incoming options hs₃
    | some existing =>
      refine ensures_bind fun payloadPresent s₄ hlook => ⟨trivial, ?_⟩
      exact ensures_indexJoin site incoming options existing payloadPresent
        (hlook.exclusive id hs₃)

theorem ensures_indexPackage (bytes : Content) (hs : s.db.Exclusive) :
    (indexPackage site feed bytes options).run.Ensures (Alone op) (fun _ _ => True)
      (fun result s => Arrived feed result s.db) s := by
  unfold indexPackage
  cases accept site bytes options with
  | error e =>
    rw [ofResult_error_bind]
    exact Or.inl hs
  | ok incoming =>
    rw [ofResult_ok_bind]
    refine ensures_bind fun _ s₁ hlock => ⟨trivial, ?_⟩
    refine ensures_bind (ensures_attempt ?_)
    refine (ensures_indexLocked site incoming options (hlock.exclusive id hs)).mono ?_
    intro result s₂ harrived
    refine ensures_bind fun _ s₃ hunlock => ⟨trivial, ?_⟩
    rcases hunlock.db with same | ⟨q, hq, -⟩
    · rw [← same] at harrived
      exact harrived
    · cases hq

end Index

section Operations

variable {op : Operation} {s : Store Unit} (site : Site) (feed : FeedName)

/-- The operation keeps memberships and tombstones apart. -/
abbrev Separates (op : Operation) {α : Type} (x : Op α) : Prop :=
  Preserves (Alone op) (fun _ _ => True) (fun s => s.db.Exclusive) x

theorem separates_withVersionLock {α : Type} {k : VersionKey} {x : Op α}
    (hx : x.run.Calls fun c => ¬ c.stores) : Separates op (withVersionLock k x) :=
  preserves_of_spares op (calls_withVersionLock id id hx)

theorem spares_purgeGlobalData (k : VersionKey) :
    (purgeGlobalData k).run.Calls fun c => ¬ c.stores :=
  (calls_purgeGlobalData k).mono fun _ => not_stores_of_purges

theorem spares_purgeLocked (k : VersionKey) :
    (purgeLocked feed k).run.Calls fun c => ¬ c.stores := by
  refine calls_bind (calls_query id) fun removed => calls_bind (calls_query id) fun holders => ?_
  exact calls_bind (calls_onlyIf (spares_purgeGlobalData k)) fun _ => calls_pure _

theorem spares_purgePlannedLocked (k : VersionKey) :
    (purgePlannedLocked feed k).run.Calls fun c => ¬ c.stores := by
  refine calls_bind (calls_query id) fun m => ?_
  cases m with
  | none => exact calls_pure _
  | some m =>
    dsimp only
    split_ifs
    · exact calls_pure _
    · exact spares_purgeLocked feed k

theorem spares_sweepLocked (k : VersionKey) : (sweepLocked k).run.Calls fun c => ¬ c.stores := by
  refine calls_bind (calls_attempt (calls_query id)) fun holders => ?_
  split
  · refine calls_bind (calls_unwrapOr (calls_query id)) fun still => ?_
    exact calls_onlyIf (spares_purgeGlobalData k)
  · exact calls_pure _

theorem spares_transferLocked (target : FeedMeta) (k : VersionKey) (mode : Transfer) :
    (transferLocked feed target k mode).run.Calls fun c => ¬ c.stores := by
  refine calls_bind (calls_query id) fun package => ?_
  cases package with
  | none => exact calls_throw _
  | some package =>
  refine calls_bind calls_refuseIf fun _ => calls_bind (calls_query id) fun here => ?_
  cases here with
  | none => exact calls_throw _
  | some here =>
  refine calls_bind (calls_query id) fun stored => calls_bind calls_refuseIf fun _ => ?_
  refine calls_bind ?_ fun arrival => calls_bind (calls_onlyIf ?_) fun _ => calls_pure _
  · refine calls_bind (calls_attempt (calls_query id)) fun added => ?_
    split
    · exact calls_pure _
    · exact calls_pure _
    · exact calls_throw _
  · exact calls_bind (calls_query id) fun _ => calls_pure _

theorem not_stores_of_approves {ks : List VersionKey} {c : Call} (h : c.approves ks) :
    ¬ c.stores := by
  intro hc
  unfold Call.stores at hc
  split at hc <;> first | exact h.elim | exact hc.elim

/-- The parts that push nothing. -/
theorem sections_separates : Sections site (fun _ _ => False)
    (fun {α : Type} (x : Op α) => Separates op x) where
  query q h := preserves_of_spares op (calls_query fun hc => by
    cases q <;> first | exact hc.elim | exact h.elim)
  arrive _ _ := preserves_of_spares op (calls_call id)
  purge feed k := separates_withVersionLock (spares_purgeLocked feed k)
  planned feed k := separates_withVersionLock (spares_purgePlannedLocked feed k)
  sweep k := separates_withVersionLock (spares_sweepLocked k)
  index _ _ _ h := h.elim
  approve feed v shown := separates_withVersionLock
    ((calls_approveLocked site feed v shown).mono fun _ => not_stores_of_approves)
  approveMany feed id versions shown := preserves_of_spares op
    (calls_withVersionLocks (fun _ h => h) (fun _ h => h)
      ((calls_approveManyLocked site feed id versions shown).mono fun _ => not_stores_of_approves))
  transfer source target k mode :=
    separates_withVersionLock (spares_transferLocked source target k mode)

theorem separates_push (bytes : Content) (options : IndexOptions) (planned : List VersionKey) :
    Separates op (pushPackage site feed bytes options planned) := by
  have closed := closed_preserves (ε := Error) (Alone op) (fun _ _ => True) fun s => s.db.Exclusive
  refine closed.bind (closed.optionForM fun a => preserves_of_spares op (calls_call id)) ?_
  rintro _ s hs
  refine ensures_bind ((ensures_indexPackage site options bytes hs).mono fun result s₁ h => ?_)
  cases result with
  | error e =>
    rcases h with h | ⟨r, hr, -⟩
    · exact h
    · cases hr
  | ok result =>
  refine ensures_bind (ensures_bind (ensures_attempt fun cleared s₂ hclear => ⟨trivial, ?_⟩))
  have hs₂ : s₂.db.Exclusive := by
    rcases h with h | ⟨_, hr, h⟩
    · exact hclear.exclusive id h
    obtain rfl := Except.ok.inj hr
    rcases hclear.query with ⟨rfl, rfl⟩ | ⟨rfl, rfl⟩
    · have hnone := Database.isTombstoned_eq_false.mp hclear.2
      intro key
      by_cases hkey : key = (feed, result.key)
      · intro _
        rwa [hkey]
      · exact h key hkey
    · intro key
      by_cases hkey : key = (feed, result.key)
      · intro _
        simp [DbCall.run, Database.clearTombstone, hkey]
      · exact DbCall.apart_run id (h key hkey)
  exact (sections_separates site).applyPlan closed feed planned s₂ hs₂

/-- A look that finds no tombstone. A mirror takes a failed one for a tombstone. -/
theorem ensures_look {k : VersionKey} {default : Bool} (hdefault : op.migrates ∨ default = true)
    (hs : s.db.Exclusive) :
    (unwrapOr (query (.isTombstoned feed k)) default).run.Ensures (Alone op) (fun _ _ => True)
      (fun r s => s.db.Exclusive ∧ (r = .ok false → Clear (feed, k) s.db)) s := by
  refine ensures_bind (ensures_attempt fun r s₁ hlook => ⟨trivial, ?_⟩)
  have hs₁ := hlook.exclusive id hs
  cases r with
  | error e =>
    refine ⟨hs₁, fun hr => ⟨hs₁, ?_⟩⟩
    rcases hdefault with hmigrates | rfl
    · rcases hlook.query with ⟨-, rfl⟩ | ⟨hr, -⟩
      · exact Database.isTombstoned_eq_false.mp (hlook.2 hmigrates)
      · cases hr
    · cases hr
  | ok deleted =>
    refine ⟨hs₁, fun hr => ⟨hs₁, ?_⟩⟩
    obtain rfl : deleted = false := Except.ok.inj hr
    rcases hlook.query with ⟨hr, -⟩ | ⟨hr, rfl⟩
    · cases hr
    · exact Database.isTombstoned_eq_false.mp (Except.ok.inj hr).symm

variable (v : VersionRef) (options : CopyOptions) (unlisted : Bool)
variable (download : Except Error Content)

theorem separates_mirror (failedLately : Bool) :
    Separates op (mirrorVersion site feed v options unlisted failedLately download) := by
  have closed := closed_preserves (ε := Error) (Alone op) (fun _ _ => True) fun s => s.db.Exclusive
  refine closed.bind (preserves_of_spares op ?_) fun fetch => ?_
  · refine calls_bind (calls_unwrapOr (calls_query id)) fun here => ?_
    split_ifs
    · exact calls_pure _
    refine calls_bind (calls_unwrapOr (calls_query id)) fun deleted => ?_
    split_ifs
    · exact calls_pure _
    · exact calls_pure _
  cases fetch with
  | false => exact closed.result _
  | true =>
  cases download with
  | error e => exact closed.result _
  | ok bytes =>
  intro s hs
  refine ensures_bind ((ensures_look feed (Or.inr rfl) hs).mono fun deleted s₁ h => ?_)
  cases deleted with
  | error e => exact h.1
  | ok deleted =>
  cases deleted with
  | true => exact h.1
  | false =>
    refine (ensures_clear op (calls_bind (calls_attempt (calls_indexPackage site feed bytes _ v rfl
      ?_ ?_ fun _ => Or.inl)) fun indexed => ?_) (h.2 rfl)).mono fun _ _ hs => hs.exclusive
    · exact Or.inr ⟨id, by simp⟩
    · exact Or.inr ⟨id, by simp⟩
    · cases indexed with
      | ok _ => exact calls_pure _
      | error _ => exact calls_pure _

theorem separates_migrate (hmigrates : op.migrates) (overwrite : Bool) :
    Separates op (migrateVersion site feed v options overwrite unlisted download) := by
  have present {φ : Call → Prop} (h : φ (.db (.existsIn feed v.key))) :
      (if !overwrite then unwrapOr (query (.existsIn feed v.key)) false
        else pure false : Op Bool).run.Calls φ := by
    split_ifs
    · exact calls_unwrapOr (calls_query h)
    · exact calls_pure _
  intro s hs
  have listed : (listItem feed v.key !overwrite).run.Ensures (Alone op) (fun _ _ => True)
      (fun r s => s.db.Exclusive ∧ (r = .ok true → Clear (feed, v.key) s.db)) s := by
    refine ensures_bind ((ensures_look feed (Or.inl hmigrates) hs).mono fun deleted s₁ h => ?_)
    cases deleted with
    | error e => exact ⟨h.1, fun hr => by cases hr⟩
    | ok deleted =>
    cases deleted with
    | true =>
      refine ensures_bind ((preserves_of_spares op (present id) s₁ h.1).mono fun r s₂ hs₂ => ?_)
      cases r with
      | error e => exact ⟨hs₂, fun hr => by cases hr⟩
      | ok present => exact ⟨hs₂, fun hr => by cases hr⟩
    | false =>
      refine ensures_bind ((ensures_clear op (present (Or.inr ⟨id, by simp⟩)) (h.2 rfl)).mono
        fun r s₂ hs₂ => ?_)
      cases r with
      | error e => exact ⟨hs₂.exclusive, fun _ => hs₂⟩
      | ok present => exact ⟨hs₂.exclusive, fun _ => hs₂⟩
  refine ensures_bind (listed.mono fun copy s₁ h => ?_)
  cases copy with
  | error e => exact h.1
  | ok copy =>
  cases copy with
  | false => exact h.1
  | true =>
    refine (ensures_clear op (calls_migrateOne site feed v options overwrite unlisted download
      ?_ ?_ (fun _ => Or.inl) ?_) (h.2 rfl)).mono fun _ _ hs => hs.exclusive
    · exact Or.inr ⟨id, by simp⟩
    · exact Or.inr ⟨id, by simp⟩
    · exact Or.inr ⟨id, by simp⟩

theorem separates_operation (op : Operation) : Separates op (op.run site) := by
  have closed := closed_preserves (ε := Error) (Alone op) (fun _ _ => True) fun s => s.db.Exclusive
  cases op with
  | push feed bytes options planned => exact separates_push site feed bytes options planned
  | mirror feed v options unlisted failedLately download =>
    exact closed.discard (separates_mirror site feed v options unlisted download failedLately)
  | migrate feed v options overwrite unlisted download =>
    have hmigrates : (Operation.migrate feed v options overwrite unlisted download).migrates :=
      trivial
    exact separates_migrate site feed v options unlisted download hmigrates overwrite
  | _ => exact (sections_separates site).run closed _ fun _ _ h => h.elim

end Operations

section Histories

/-- The states of a server, newest first. It completes one operation after the
other, each of whose calls is `ok`, and is stopped for a rename of a feed and
for a restore of what it once held. -/
inductive History (site : Site) (ok : Operation → Database → (c : Call) → c.Answer → Prop) :
    List (Store Unit) → Prop
  | fresh : History site ok [Store.empty Unit]
  | operation {s : Store Unit} {states : List (Store Unit)} {op : Operation}
      {c : Config Unit Call Call.Answer Bool (Store Unit)} :
      History site ok (s :: states) →
      (server Unit).Reaches (fun w e _ => ok op w.state.db e.call e.answer)
        (serving site s fun _ => op) c →
      (c.threads ()).nextCall = none → History site ok (c.world.state :: s :: states)
  | rename {s : Store Unit} {states : List (Store Unit)} (src dst : FeedName) (hold : Bool) :
      History site ok (s :: states) →
      History site ok ({ s with db := (s.db.renameFeed src dst hold).2 } :: s :: states)
  | restore {s : Store Unit} {states : List (Store Unit)} :
      History site ok states → s ∈ states →
      History site ok ({ Store.empty Unit with db := s.db, storage := s.storage } :: states)

variable {site : Site} {states : List (Store Unit)}

/-- An operation run to its end, whether it succeeds or fails. -/
theorem exclusive_completed {op : Operation} {s : Store Unit}
    {c : Config Unit Call Call.Answer Bool (Store Unit)} (hs : s.db.Exclusive)
    (h : (server Unit).Reaches (fun w e _ => Heeds op w.state.db e.call e.answer)
      (serving site s fun _ => op) c) (hdone : (c.threads ()).nextCall = none) :
    c.world.state.db.Exclusive := by
  have whole : (op.program site).Ensures (Alone op) (fun _ _ => True)
      (fun _ s => s.db.Exclusive) s :=
    Program.Ensures.bind ((separates_operation site op s hs).mono fun _ _ hs => hs)
  refine Program.Ensures.completed ?_ whole h hdone
  rintro w o call r w' hp hheeds
  exact ⟨⟨o, ((server Unit).perform_eq_some.mp hp).1⟩, hheeds⟩

/-- In a history whose calls meet the condition, no feed holds a version it has
a tombstone for. -/
theorem membership_excludes_tombstone (h : History site Heeds states) :
    ∀ s ∈ states, ∀ f k, ¬ (s.db.existsIn f k = true ∧ s.db.isTombstoned f k = true) := by
  have exclusive : ∀ s ∈ states, s.db.Exclusive := by
    induction h with
    | fresh =>
      intro s hs
      obtain rfl := List.mem_singleton.mp hs
      exact fun _ _ => rfl
    | operation _ hr hdone ih =>
      intro s' hs'
      rcases List.mem_cons.mp hs' with rfl | hs'
      · exact exclusive_completed (ih _ List.mem_cons_self) hr hdone
      · exact ih s' hs'
    | rename src dst hold _ ih =>
      intro s' hs'
      rcases List.mem_cons.mp hs' with rfl | hs'
      · exact (ih _ List.mem_cons_self).renameFeed src dst hold
      · exact ih s' hs'
    | @restore s _ _ hs ih =>
      intro s' hs'
      rcases List.mem_cons.mp hs' with rfl | hs'
      · exact ih s hs
      · exact ih s' hs'
  rintro s hs f k ⟨hmember, htombstone⟩
  have := exclusive s hs (f, k) hmember
  rw [← Database.isTombstoned_eq_false, htombstone] at this
  contradiction

end Histories

/-! A sample: a version is pushed to feed `a`, moved to feed `b`, and copied back. -/

def sampleTarget (name : FeedName) : FeedMeta := ⟨name, default, false⟩

def sampleMoves : Fin 3 → Operation
  | 0 => .push "a" [1] (sampleOptions []) []
  | 1 => .transfer "a" (sampleTarget "b") sampleKey .move
  | 2 => .transfer "b" (sampleTarget "a") sampleKey .copy

def completed (site : Site) (op : Operation) (s : Store Unit) (n : ℕ) : Store Unit :=
  (((server Unit).run (serving site s fun _ => op) (calls () n)).map fun c => c.world.state).getD s

theorem History.completed {site : Site} {states : List (Store Unit)} {s : Store Unit}
    {ok : Operation → Database → (c : Call) → c.Answer → Prop} (op : Operation) (n : ℕ)
    {test : Database → (c : Call) → c.Answer → Bool}
    (hok : ∀ db c r, test db c r = true → ok op db c r) (h : History site ok (s :: states))
    (passed : (server Unit).runs (fun w e _ => test w.state.db e.call e.answer)
      (serving site s fun _ => op) (calls () n) = true)
    (hdone : (((server Unit).run (serving site s fun _ => op) (calls () n)).all fun c =>
      decide ((c.threads ()).nextCall = none)) = true) :
    History site ok (completed site op s n :: s :: states) := by
  obtain ⟨c, hrun, hreach⟩ := Machine.Reaches.of_runs
    (fun (w : StoreWorld Unit) (e : StoreEvent Unit) _ => hok w.state.db e.call e.answer) passed
  have hstate : YaNuget.completed site op s n = c.world.state := by
    simp [YaNuget.completed, hrun]
  rw [hstate]
  exact h.operation hreach (by simpa [hrun] using hdone)

/-- The call brings nothing into a feed that has a tombstone for it, as a test. -/
def Call.fresh (db : Database) : Call → Bool
  | .db (.addMembership f k _) => !db.isTombstoned f k
  | _ => true

theorem heeds_of_fresh {op : Operation} {db : Database} {c : Call} {r : c.Answer}
    (h : (!c.fails r && c.fresh db) = true) : Heeds op db c r := by
  simp only [Bool.and_eq_true, Bool.not_eq_true'] at h
  unfold Heeds
  split
  · simpa [Call.fresh] using h.2
  · simp [Call.fails, Except.isOk, Except.toBool] at h
  · simp [Call.fails, Except.isOk, Except.toBool] at h
  · trivial

def samplePushed : Store Unit := completed sampleSite (sampleMoves 0) (Store.empty Unit) 9

def sampleMoved : Store Unit := completed sampleSite (sampleMoves 1) samplePushed 9

def sampleReturned : Store Unit := completed sampleSite (sampleMoves 2) sampleMoved 8

/-- The move leaves a tombstone, and takes the membership away. -/
theorem membership_excludes_tombstone_sample :
    sampleMoved.db.existsIn "b" sampleKey = true ∧
      sampleMoved.db.isTombstoned "a" sampleKey = true ∧
      sampleMoved.db.existsIn "a" sampleKey = false := by
  have pushed : History sampleSite Heeds [samplePushed, Store.empty Unit] :=
    History.fresh.completed (sampleMoves 0) 9 (fun _ _ _ => heeds_of_fresh) (by decide +kernel)
      (by decide +kernel)
  have history := pushed.completed (sampleMoves 1) 9 (fun _ _ _ => heeds_of_fresh)
    (by decide +kernel) (by decide +kernel)
  have htombstone : sampleMoved.db.isTombstoned "a" sampleKey = true := by decide +kernel
  refine ⟨by decide +kernel, htombstone, ?_⟩
  by_contra hmember
  exact membership_excludes_tombstone history sampleMoved List.mem_cons_self "a" sampleKey
    ⟨by simpa using hmember, htombstone⟩

/-- The copy back leaves the tombstone of the move in place. No call fails. -/
theorem membership_with_tombstone :
    ∃ states, History sampleSite (fun _ _ c r => c.fails r = false) states ∧
      ∃ s ∈ states, s.db.existsIn "a" sampleKey = true ∧
        s.db.isTombstoned "a" sampleKey = true := by
  have hok (c : Call) (r : c.Answer) (h : (!c.fails r) = true) : c.fails r = false := by
    simpa using h
  have pushed : History sampleSite (fun _ _ c r => c.fails r = false)
      [samplePushed, Store.empty Unit] :=
    History.fresh.completed (sampleMoves 0) 9 (fun _ => hok) (by decide +kernel) (by decide +kernel)
  have moved := pushed.completed (sampleMoves 1) 9 (fun _ => hok) (by decide +kernel)
    (by decide +kernel)
  have returned := moved.completed (sampleMoves 2) 8 (fun _ => hok) (by decide +kernel)
    (by decide +kernel)
  exact ⟨_, returned, sampleReturned, List.mem_cons_self, by decide +kernel, by decide +kernel⟩

end YaNuget
