import YaNuget.Operations.Decisions
import YaNuget.Operations.PayloadAgreement

/-!
# Overwrites and the decisions of operators

An overwrite writes back the decisions it read at its start. Nothing keeps an
admin operation from landing in between, so a run keeps the decisions only if
every replacement still finds those its push has read.
-/
namespace YaNuget

open Concurrency Op Fallible Protocol

def Call.replaces (f : FeedName) (k : VersionKey) : Call → Prop
  | .db (.replaceVersion p f' _) | .db (.replacePendingVersion p f' _ _ _) => f' = f ∧ p.key = k
  | _ => False

/-- A push to any feed that prunes other versions only, or an admin operation
that takes no version out of its feed. -/
def Operation.manages (k : VersionKey) : Operation → Prop
  | .push _ _ _ planned => k ∉ planned
  | .setEnabled _ _ _ | .setPinned _ _ _ | .relist _ _ | .approve _ _ _ => True
  | .delete _ _ hardDeleteEnabled => hardDeleteEnabled = false
  | .bulk _ _ _ _ op => op = .enable ∨ op = .disable ∨ op = .pin ∨ op = .unpin ∨ op = .approve
  | _ => False

section Protocol

variable {T : Type} [DecidableEq T] (f : FeedName) (k : VersionKey) (original : Decisions)

/-- A replacement that goes through finds the decisions that its push has read. -/
def Timely (w : StoreWorld T) (e : StoreEvent T) : Prop :=
  e.call.replaces f k → e.call.fails e.answer = false → ∀ m previous,
    w.state.db.feedPackages.row (f, k) = some m → lastRead e.thread f k w.past = some previous →
    m.decisions = previous.decisions

/-- The membership records the decisions taken so far. -/
def recorded : Protocol T Call Call.Answer Bool (Store T) where
  inv w := ∃ m, w.state.db.feedPackages.row (f, k) = some m ∧
    m.decisions = decided f k original w.past
  guar _ _ _ := True
  allow w e _ := Timely f k w e

end Protocol

section Kept

variable {T : Type} [DecidableEq T] {f : FeedName} {k : VersionKey} {original : Decisions}
variable {t : T} {o : Bool} {w w' : StoreWorld T} {c : Call} {r : c.Answer} {previous : Membership}

theorem recorded_step (hp : (server T).perform t c o w = some (r, w')) (hc : ¬ c.clobbers f k)
    (hinv : (recorded f k original).inv w) : (recorded f k original).inv w' := by
  obtain ⟨m, hm, hdecisions⟩ := hinv
  obtain ⟨m', hm', hdecisions'⟩ := decisions_of_perform hp hc hm
  refine ⟨m', hm', ?_⟩
  rw [hdecisions', hdecisions, ((server T).perform_eq_some.mp hp).2, decided_cons]

/-- A replacement by what was read keeps the decisions if it is timely. -/
theorem recorded_replace (hp : (server T).perform t c o w = some (r, w'))
    (hc : c.overwrites f k previous) (hreplaces : c.replaces f k)
    (hread : lastRead t f k w.past = some previous) (htimely : Timely f k w ⟨t, c, o, r⟩)
    (hinv : (recorded f k original).inv w) : (recorded f k original).inv w' := by
  obtain ⟨m, hm, hdecisions⟩ := hinv
  have hpast := ((server T).perform_eq_some.mp hp).2
  have hsame (h : c.fails r = false) : previous.decisions = decided f k original w.past :=
    (htimely hreplaces h m previous hm hread).symm.trans hdecisions
  cases c with
  | db q =>
    cases q with
    | replaceVersion p f' m' =>
      obtain ⟨rfl, rfl, hlisted, hset, henabled, hpinned⟩ := hc
      rcases perform_query hp with ⟨rfl, hs⟩ | ⟨rfl, hs⟩
      · exact ⟨m, by rw [hs, hm], by rw [hpast, hdecisions]; rfl⟩
      · refine ⟨m', by simp [hs, DbCall.run], ?_⟩
        rw [hpast, decided_cons]
        refine Eq.trans ?_ (hsame rfl)
        simp [Membership.decisions, hlisted, hset, henabled, hpinned]
    | replacePendingVersion p f' m' dropFiles others =>
      obtain ⟨rfl, rfl, hlisted, hset, henabled, hpinned⟩ := hc
      rcases perform_query hp with ⟨rfl, hs⟩ | ⟨rfl, hs⟩
      · exact ⟨m, by rw [hs, hm], by rw [hpast, hdecisions]; rfl⟩
      · rcases w.state.db.replacePendingVersion_cases f' p m' dropFiles others with
          ⟨e, he⟩ | ⟨_, db', he, -, -, same, -⟩
        · refine ⟨m, by simp [hs, DbCall.run, he, hm], ?_⟩
          rw [hpast, decided_cons, hdecisions]
          simp [Call.decide]
        · rcases same (f', p.key) with ⟨hnone, -⟩ | ⟨m₁, m₂, hm₁, hm₂, same⟩
          · simp at hnone
          · obtain rfl : m' = m₁ := by simpa using hm₁
            refine ⟨m₂, by simp [hs, DbCall.run, he, hm₂], ?_⟩
            rw [hpast, decided_cons]
            refine Eq.trans ?_ (hsame (by simp [DbCall.run, he, Call.fails, Except.isOk, Except.toBool]))
            simp [Membership.decisions, same.listed, same.listingSet, same.enabled, same.pinned,
              hlisted, hset, henabled, hpinned]
    | _ => exact hreplaces.elim
  | _ => exact hreplaces.elim

/-- An overwrite puts nothing but its own feed's membership at risk. -/
theorem replaces_of_clobbers {feed : FeedName} {k' : VersionKey} (h : c.overwrites feed k' previous)
    (hc : c.clobbers f k) : c.replaces f k ∧ feed = f := by
  unfold Call.clobbers at hc
  split at hc
  · exact ⟨hc, h.2.1.symm.trans hc.1⟩
  · exact ⟨hc, h.2.1.symm.trans hc.1⟩
  · exact h.elim
  · exact h.elim
  · exact h.elim
  · exact h.elim
  · exact hc.elim

theorem not_clobbers (feed : FeedName) (k' : VersionKey) (ks : List VersionKey)
    (h : c.joins feed k' ∨ c.approves ks) : ¬ c.clobbers f k := by
  intro hc
  unfold Call.clobbers at hc
  split at hc
  · exact h.elim id id
  · exact h.elim id id
  · exact h.elim id id
  · exact h.elim id id
  · exact h.elim id id
  · exact h.elim id id
  · exact hc.elim

theorem showsMember_of_overwrites (h : c.overwrites f k previous) : c.showsMember f k r = none := by
  unfold Call.showsMember
  split
  · exact h.elim
  · rfl

end Kept

section Sections

variable {T : Type} [DecidableEq T] {f : FeedName} {k : VersionKey} {original : Decisions}
variable {t : T} {α : Type}

theorem stable_lastRead (m : Option Membership) :
    (recorded f k original).Stable (server T) t fun w => lastRead t f k w.past = m := by
  rintro u hu w w' ⟨c, o, r, hp, -⟩ hw
  exact (lastRead_of_other hp hu).trans hw

theorem stable_true : (recorded f k original).Stable (server T) t fun _ => True :=
  fun _ _ _ _ _ _ => trivial

/-- `x` never replaces the membership, whatever it is answered. -/
theorem maintains_of_spares {x : Op α} (h : x.run.Calls fun c => ¬ c.clobbers f k) :
    (recorded f k original).Maintains (server T) t (fun _ => True) x :=
  Maintains.of_calls stable_true
    (fun _ hc _ _ hinv _ _ _ hp _ => ⟨recorded_step hp hc hinv, trivial, trivial⟩) h

theorem safe_query {q : DbCall} {A : StoreWorld T → Prop} {Q : Except Error q.Answer → StoreWorld T → Prop}
    {w : StoreWorld T} (hq : ¬ (Call.db q).clobbers f k)
    (hA : (recorded f k original).Stable (server T) t A) (hw : A w)
    (h : ∀ w o r w', A w → (recorded f k original).inv w →
      (server T).perform t (.db q) o w = some (r, w') → Q r w') :
    (recorded f k original).Safe (server T) t (query q).run Q w :=
  Safe.call hA hw fun w hw hinv o r w' hp _ =>
    ⟨recorded_step hp hq hinv, trivial, h w o r w' hw hinv hp⟩

theorem safe_indexOverwrite (site : Site) (feed : FeedName) (incoming : Incoming site.sha512)
    (options : IndexOptions) (existing : PackageAt incoming.package.key) (previous : Membership)
    (payloadPresent : Bool) {w : StoreWorld T}
    (hread : feed = f → lastRead t f incoming.package.key w.past = some previous) :
    (recorded f incoming.package.key original).Safe (server T) t
      (indexOverwrite site feed incoming options existing previous payloadPresent).run
      (fun _ _ => True) w := by
  have footprint := calls_indexOverwrite site feed incoming options existing previous payloadPresent
  by_cases hfeed : feed = f
  · subst hfeed
    refine (Safe.of_calls (stable_lastRead (some previous)) ?_ footprint (hread rfl)).mono
      fun _ _ _ => trivial
    intro c hc w hread hinv o r w' hp htimely
    have hread' : lastRead t feed incoming.package.key w'.past = some previous := by
      rw [((server T).perform_eq_some.mp hp).2, lastRead_cons, if_pos rfl,
        showsMember_of_overwrites hc, Option.none_or, hread]
    refine ⟨?_, trivial, hread'⟩
    by_cases hreplaces : c.replaces feed incoming.package.key
    · exact recorded_replace hp hc hreplaces hread htimely hinv
    · exact recorded_step hp (fun h => hreplaces (replaces_of_clobbers hc h).1) hinv
  · exact maintains_of_spares
      (footprint.mono fun _ hc h => hfeed (replaces_of_clobbers hc h).2) w trivial

/-- While a feed holds the version, its data are no remains. -/
theorem safe_dropRemains {existing : PackageAt k} {A : StoreWorld T → Prop} {w : StoreWorld T}
    (hA : (recorded f k original).Stable (server T) t A)
    (hcall : ∀ w o (r : (Call.db (.feedCount k)).Answer) w', A w →
      (server T).perform t (.db (.feedCount k)) o w = some (r, w') → A w') (hw : A w) :
    (recorded f k original).Safe (server T) t (dropRemains k (some existing)).run
      (fun r w => A w ∧ ∀ a, r = .ok a → a = some existing) w := by
  refine Safe.bindExcept (safe_query id hA hw ?_)
  rintro w o r w' hw ⟨m, hm, -⟩ hp
  have hw' := hcall w o r w' hw hp
  rcases perform_query hp with ⟨rfl, -⟩ | ⟨rfl, -⟩
  · exact ⟨hw', fun a h => by simp at h⟩
  have hheld : w.state.db.feedCount k ≠ 0 := by
    intro hzero
    simp [(Database.feedCount_eq_zero _ _).mp hzero f] at hm
  simp only [DbCall.run, if_neg hheld]
  exact ⟨hw', fun a h => (Except.ok.inj h).symm⟩

/-- A push of the version itself, to any feed. -/
theorem maintains_indexLocked (site : Site) (feed : FeedName) (incoming : Incoming site.sha512)
    (options : IndexOptions) :
    (recorded f incoming.package.key original).Maintains (server T) t (fun _ => True)
      (indexLocked site feed incoming options) := by
  intro w _
  refine Safe.bindExcept (safe_query id stable_true trivial ?_)
  rintro w₁ o existing w₁' - ⟨m, hm, -⟩ hp
  rcases perform_query hp with ⟨rfl, -⟩ | ⟨rfl, -⟩
  · trivial
  obtain ⟨existing, hexisting⟩ : ∃ existing, w₁.state.db.getPackageData incoming.package.key =
      some existing := by
    have hpackage := w₁.state.db.package_of_member (Option.isSome_of_eq_some hm)
    obtain ⟨p, hp⟩ := Option.isSome_iff_exists.mp hpackage
    exact ⟨⟨p, w₁.state.db.key_of_row hp⟩, (Database.getPackageData_eq_some _ _ _).mpr hp⟩
  simp only [DbCall.run, hexisting]
  refine Safe.bindExcept (safe_query id stable_true trivial ?_)
  rintro w₂ o previous w₂' - ⟨m, hm, -⟩ hp
  let A (w : StoreWorld T) : Prop := feed = f →
    ∃ m, previous = .ok (some m) ∧ lastRead t f incoming.package.key w.past = some m
  have hA : (recorded f incoming.package.key original).Stable (server T) t A := by
    rintro u hu w w' ⟨c, o, r, hp, -⟩ hw hfeed
    rw [lastRead_of_other hp hu]
    exact hw hfeed
  have hcall {c : Call} {o : Bool} {r : c.Answer} {w w' : StoreWorld T}
      (hp : (server T).perform t c o w = some (r, w'))
      (hc : c.showsMember f incoming.package.key r = none) (hw : A w) : A w' := by
    intro hfeed
    rw [((server T).perform_eq_some.mp hp).2, lastRead_cons, if_pos rfl, hc, Option.none_or]
    exact hw hfeed
  have hpast := ((server T).perform_eq_some.mp hp).2
  rcases perform_query hp with ⟨rfl, -⟩ | ⟨rfl, -⟩
  · trivial
  have hread : A w₂' := by
    rintro rfl
    refine ⟨m, by simp [DbCall.run, Database.getMembership, hm], ?_⟩
    simp [hpast, lastRead_cons, Call.showsMember, DbCall.run, Database.getMembership, hm]
  simp only [DbCall.run] at hread ⊢
  refine Safe.bindExcept ((safe_dropRemains hA (fun _ _ _ _ hw hp => hcall hp rfl hw) hread).mono ?_)
  rintro r w₃ ⟨hread, hexisting⟩
  cases r with
  | error e => trivial
  | ok remaining =>
  obtain rfl := hexisting remaining rfl
  refine Safe.call hA hread fun w₄ hread _ o payloadPresent w₄' hp _ => ?_
  refine ⟨recorded_step hp id ‹_›, trivial, ?_⟩
  replace hread := hcall hp rfl hread
  cases hprevious : w₂.state.db.getMembership feed incoming.package.key with
  | none =>
    have footprint := calls_indexJoin site feed incoming options existing payloadPresent
    exact maintains_of_spares (footprint.mono fun _ hc => not_clobbers feed _ [] (.inl hc)) w₄' trivial
  | some previous =>
    refine safe_indexOverwrite site feed incoming options existing previous payloadPresent ?_
    rintro hfeed
    obtain ⟨m, hm, hread⟩ := hread hfeed
    obtain rfl : previous = m := by simpa [DbCall.run, hprevious] using hm
    exact hread

theorem recorded_withVersionLock {x : Op α} {k' : VersionKey}
    (h : (recorded f k original).Maintains (server T) t (fun _ => True) x) :
    (recorded f k original).Maintains (server T) t (fun _ => True) (withVersionLock k' x) := by
  have closed := Protocol.closed_maintains (ε := Error) (server T) (recorded f k original) t
    fun _ => True
  refine closed.bind (maintains_of_spares (calls_call id)) fun _ => ?_
  refine closed.bind (closed.attempt h) fun result => ?_
  exact closed.bind (maintains_of_spares (calls_call id)) fun _ => closed.result result

theorem maintains_push (site : Site) (feed : FeedName) (bytes : Content) (options : IndexOptions)
    {planned : List VersionKey} (hplanned : k ∉ planned) :
    (recorded f k original).Maintains (server T) t (fun _ => True)
      (pushPackage site feed bytes options planned) := by
  have closed := Protocol.closed_maintains (ε := Error) (server T) (recorded f k original) t
    fun _ => True
  refine closed.bind (closed.optionForM fun a => maintains_of_spares (calls_call id)) fun _ => ?_
  refine closed.bind (closed.bind (closed.result _) fun incoming => ?_) fun result => ?_
  · by_cases hk : incoming.package.key = k
    · subst hk
      exact recorded_withVersionLock (maintains_indexLocked site feed incoming options)
    · refine recorded_withVersionLock (maintains_of_spares
        ((calls_indexLocked site feed incoming options).mono fun c hc hclobbers => hk ?_))
      have := Call.changes_of_within (Call.within_of_indexes hc) (Call.changes_of_clobbers hclobbers)
      exact (List.mem_singleton.mp this).symm
  refine closed.bind (closed.ignore (maintains_of_spares (calls_query id))) fun _ => ?_
  refine closed.forM fun k' hk' => closed.ignore (maintains_of_spares ?_)
  refine calls_withVersionLock id id ((calls_purgePlannedLocked feed k').mono fun c hc hclobbers => ?_)
  have hk := Call.changes_of_within hc (Call.changes_of_clobbers hclobbers)
  simp only [List.mem_singleton] at hk
  exact hplanned (hk ▸ hk')

theorem maintains_operation (site : Site) {op : Operation} (hop : op.manages k) :
    (recorded f k original).Maintains (server T) t (fun _ => True) (op.run site) := by
  cases op with
  | push feed bytes options planned => exact maintains_push site feed bytes options hop
  | setEnabled feed k' on => exact maintains_of_spares (calls_orNotFound (calls_query id))
  | setPinned feed k' on => exact maintains_of_spares (calls_orNotFound (calls_query id))
  | relist feed k' => exact maintains_of_spares (calls_orNotFound (calls_query id))
  | delete feed k' hard =>
    obtain rfl : hard = false := hop
    exact maintains_of_spares (calls_orNotFound (calls_query id))
  | approve feed v shown =>
    refine maintains_of_spares (calls_withVersionLock id id
      ((calls_approveLocked site feed v shown).mono fun c hc => ?_))
    exact not_clobbers feed k _ (.inr hc)
  | bulk feed packageId versions shown op =>
    simp only [Operation.run, adminBulk]
    split_ifs
    · exact maintains_of_spares (calls_pure _)
    refine maintains_of_spares (calls_bind (calls_forM fun k' _ =>
      calls_bind (calls_query id) fun _ => calls_refuseIf) fun _ => ?_)
    have flags (change : MembershipChange) : (changeMany feed (versions.map (versionKey packageId))
        change).run.Calls fun c => ¬ c.clobbers f k :=
      calls_bind (calls_query id) fun _ => calls_pure _
    rcases hop with rfl | rfl | rfl | rfl | rfl
    · exact flags _
    · exact flags _
    · exact flags _
    · exact flags _
    · exact calls_withVersionLocks (fun _ => id) (fun _ => id)
        ((calls_approveManyLocked site feed packageId versions shown).mono fun _ hc =>
          not_clobbers feed k _ (.inr hc))
  | _ => exact hop.elim

end Sections

section Runs

variable {T : Type} [DecidableEq T] {site : Site} {ops : T → Operation} {s : Store T}
variable {c : Config T Call Call.Answer Bool (Store T)} {f : FeedName} {k : VersionKey}

/-- In a run whose replacements are all timely, the membership records what
the admin operations have decided. -/
theorem decisions_recorded {m₀ : Membership} (hops : ∀ t, (ops t).manages k)
    (start : s.db.feedPackages.row (f, k) = some m₀)
    (h : (server T).Reaches (fun w e _ => Timely f k w e) (serving site s ops) c) :
    ∃ m, c.world.state.db.feedPackages.row (f, k) = some m ∧
      m.decisions = decided f k m₀.decisions c.world.past := by
  have keeps : (recorded f k m₀.decisions).Keeps (server T) (serving site s ops) := by
    refine ⟨⟨m₀, start, rfl⟩, fun t => Safe.bind ?_⟩
    exact (maintains_operation site (hops t) _ trivial).mono fun _ _ _ => trivial
  exact (keeps.reaches h).1

end Runs

/-! A sample: a feed that holds the first build and accepts overwrites. -/

/-- Feed `a` serves the first build. -/
def sampleStore (T : Type) : Store T :=
  { Store.empty T with
    db := (Database.empty.addVersion
      (buildPackage sampleSite (sampleArchive [1]) [1] none none 0) "a" .active).2
    storage := { Storage.empty with
      payload := Function.update (fun _ => none) sampleKey (some [1])
      aux := Function.update (fun _ _ => none) sampleKey
        (Function.update (fun _ => none) .nuspec (some [1])) } }

def sampleOverwrite : Fin 2 → Operation
  | 0 => .push "a" [2] { sampleOptions [] with overwrite := .enabled, pending := false } []
  | 1 => .setPinned "a" sampleKey true

/-- The version is pinned before the push reads its membership, and stays pinned. -/
theorem decisions_recorded_sample :
    ∃ c, (server (Fin 2)).run (serving sampleSite (sampleStore _) sampleOverwrite)
        (calls 1 1 ++ calls 0 17) = some c ∧
      ∃ m, c.world.state.db.feedPackages.row ("a", sampleKey) = some m ∧
        m.decisions = { Membership.active.decisions with pinned := true } := by
  let start := serving sampleSite (sampleStore (Fin 2)) sampleOverwrite
  have passed : (server (Fin 2)).runs (fun w e _ =>
      (w.state.db.feedPackages.row ("a", sampleKey)).all fun m =>
        (lastRead e.thread "a" sampleKey w.past).all fun previous =>
          decide (m.decisions = previous.decisions))
      start (calls 1 1 ++ calls 0 17) = true := by decide +kernel
  obtain ⟨c, hrun, hreach⟩ : ∃ c, (server (Fin 2)).run start (calls 1 1 ++ calls 0 17) = some c ∧
      (server (Fin 2)).Reaches (fun w e _ => Timely "a" sampleKey w e) start c :=
    Machine.Reaches.of_runs
      (fun _ _ _ h _ _ m previous hm hprevious => by simpa [hm, hprevious] using h) passed
  have final : ((server (Fin 2)).run start (calls 1 1 ++ calls 0 17)).map (fun c =>
      decided "a" sampleKey Membership.active.decisions c.world.past) =
      some { Membership.active.decisions with pinned := true } := by decide +kernel
  simp only [hrun, Option.map_some, Option.some.injEq] at final
  have hops : ∀ t, (sampleOverwrite t).manages sampleKey
    | 0 => by simp [sampleOverwrite, Operation.manages]
    | 1 => trivial
  have held : (sampleStore (Fin 2)).db.feedPackages.row ("a", sampleKey) = some .active := by
    decide +kernel
  obtain ⟨m, hm, hdecisions⟩ := decisions_recorded hops held hreach
  exact ⟨c, hrun, m, hm, hdecisions.trans final⟩

/-- The version is pinned while the push is under way, which unpins it. -/
theorem decisions_not_recorded :
    ∃ c, (server (Fin 2)).Reaches (fun _ _ _ => True)
        (serving sampleSite (sampleStore _) sampleOverwrite) c ∧
      (∀ t, (c.threads t).nextCall = none) ∧
      ∃ m, c.world.state.db.feedPackages.row ("a", sampleKey) = some m ∧
        m.decisions ≠ decided "a" sampleKey Membership.active.decisions c.world.past := by
  let start := serving sampleSite (sampleStore (Fin 2)) sampleOverwrite
  let schedule : List (Fin 2 × Bool) := calls 0 11 ++ calls 1 1 ++ calls 0 6
  obtain ⟨c, hrun⟩ : ∃ c, (server (Fin 2)).run start schedule = some c :=
    Option.isSome_iff_exists.mp (by decide +kernel)
  have final : ((server (Fin 2)).run start schedule).map (fun c =>
      (decide (∀ t, (c.threads t).nextCall = none),
        (c.world.state.db.feedPackages.row ("a", sampleKey)).map Membership.pinned,
        (decided "a" sampleKey Membership.active.decisions c.world.past).pinned)) =
      some (true, some false, true) := by decide +kernel
  simp only [hrun, Option.map_some, Option.some.injEq, Prod.mk.injEq, decide_eq_true_eq,
    Option.map_eq_some_iff] at final
  obtain ⟨hdone, ⟨m, hm, hpinned⟩, hdecided⟩ := final
  refine ⟨c, Machine.Reaches.of_run hrun, hdone, m, hm, fun heq => ?_⟩
  rw [← heq] at hdecided
  exact absurd (hpinned.symm.trans hdecided) Bool.false_ne_true

end YaNuget
