import YaNuget.Operations.ServedBuilds
import YaNuget.Operations.SymbolPushesKept

/-!
# Symbols in every run

Every task keeps the protocol of the symbols. So while nobody holds the lock of
a version, each of its claims has its bytes, and what a push of the version has
stored stays there until the version's own symbols are purged; both as long as
pushes that undo their claims do not meet with those of others.
-/
namespace YaNuget

open Concurrency Op Fallible Protocol

variable {T : Type} [DecidableEq T] {host : Host}

namespace SymbolRun

variable (R : SymbolRun T host)

theorem symbols_task (t : T) :
    R.protocol.Maintains (server T) t (R.Locked t []) (R.tasks t).run := by
  let J {α : Type} (x : Op α) : Prop := R.protocol.Maintains (server T) t (R.Locked t []) x
  have hJ : Closed J := Protocol.closed_maintains (server T) R.protocol t _
  have hparts : Parts host.toSite (fun _ _ _ => True) (fun _ => True) J := symbols_parts R t
  cases htask : R.tasks t with
  | operate op => exact hparts.run hJ op (fun _ _ _ _ => trivial) fun _ _ => trivial
  | attach requester v name upload =>
    exact hJ.discard (symbols_withVersionLock (maintains_minor
      ((calls_attachLocked _ _ v name upload).mono fun _ => Call.minor_of_attaches)))
  | detach requester v name =>
    exact symbols_withVersionLock (maintains_minor
      ((calls_detachLocked _ _ v name).mono fun _ => Call.minor_of_attaches))
  | sweepBlobs blobs =>
    exact maintains_minor ((calls_sweepUnreferencedBlobs blobs).mono fun _ =>
      Call.minor_of_collects)
  | pushSymbols feed bytes =>
    change J (indexSymbolPackage host.symbols feed bytes)
    unfold indexSymbolPackage
    cases hread : host.symbols.readSymbols bytes with
    | error e =>
      rw [ofResult_error_bind]
      exact hJ.result _
    | ok a =>
      rw [ofResult_ok_bind]
      have hversion : (R.tasks t).symbolVersion = some (versionKey a.id a.normalized) := by
        simp [htask, Task.symbolVersion, hread, Except.toOption]
      refine hJ.bind (maintains_minor (calls_query trivial)) fun _ =>
        hJ.bind (Op.closed_refuseIf hJ _) fun _ => hJ.bind (Op.closed_refuseIf hJ _) fun _ =>
          hJ.bind (hJ.result _) fun entries => ?_
      exact symbols_withVersionLock (symbols_locked
        (symbols_indexSymbolsLocked hversion feed entries))
  | download d =>
    refine closed_downloadPackage hJ d (fun x hx => maintains_minor
      (hx.mono fun _ => Call.minor_of_fetches)) fun m => ?_
    exact hparts.mirrorVersion hJ d.feed m.v m.options m.unlisted m.failedLately m.download
      fun _ _ => trivial
  | icon d => exact maintains_minor ((calls_packageIcon d).mono fun _ => Call.minor_of_fetches)

end SymbolRun

/-- Each claim of the store has its bytes. -/
def Store.SymbolsStored (s : Store T) : Prop :=
  ∀ key, (s.db.findSymbol key).isSome → (s.storage.symbolFiles key).isSome

variable {c : Config T Call Call.Answer Bool (Store T)}
variable {allow : Machine.Allowed T Call Call.Answer Bool (Store T)}

theorem SymbolRun.keeps (R : SymbolRun T host) (hstart : R.whole → R.start.SymbolsStored)
    (h : (server T).Reaches (fun w e _ => (R.whole → leavesBytes R.tasks w e = true) ∧
      (R.owned → sparesOthers R.tasks w e = true ∧ ownsVerified host.symbols w e = true))
      (working R.start R.tasks) c) : R.protocol.Keeps (server T) c := by
  have rows : ∀ k, R.Rows k [] ⟨R.start, []⟩ := fun k key howner => by
    refine ⟨Or.inl rfl, fun _ hwhole => ?_⟩
    obtain ⟨bytes, hbytes⟩ := Option.isSome_iff_exists.mp
      (hstart hwhole key (by rw [howner]; rfl))
    exact ⟨bytes, hbytes, Or.inl ⟨howner, hbytes⟩⟩
  have start : R.protocol.Keeps (server T) (working R.start R.tasks) := by
    refine ⟨⟨fun k _ => rows k, fun k _ key bytes hstanding => hstanding.elim⟩, fun t => ?_⟩
    exact Protocol.Safe.bind ((R.symbols_task t _ (by simp [SymbolRun.Locked])).mono fun _ _ _ => trivial)
  exact start.reaches ((task_disciplined h).mono fun _ _ _ h => ⟨h.2, h.1⟩)

/-- A server on which both versions of a package ship the same PDB. -/
def symbolHost : Host where
  toSite :=
    { sampleSite with
      readArchive := fun bytes => .ok { sampleArchive bytes with
        version := if bytes = [1] then ⟨(1, 0, 0, 0), false⟩ else ⟨(2, 0, 0, 0), false⟩
        normalized := if bytes = [1] then "1.0.0" else "2.0.0" } }
  feeds := sampleHost.feeds
  feeds_nodup := sampleHost.feeds_nodup
  symbols :=
    { sha256 := fun bytes => if bytes = [9] then "pdb" else "other"
      readSymbols := fun bytes => .ok ⟨"Lib", if bytes = [1] then "1.0.0" else "2.0.0",
        ["Lib.pdb"], .ok [("Lib.pdb", [9])]⟩
      checkPdb := fun _ _ => .ok (some "key") }
  httpDate _ := ""

def samplePdb : SymbolKey := ⟨"key", "lib.pdb"⟩

def otherKey : VersionKey := ⟨"lib", "2.0.0"⟩

/-- Both versions are pushed, and then the symbols of both. -/
def samplePdbs : Fin 4 → Task symbolHost
  | 0 => .operate (.push "a" [1] (sampleOptions []) [])
  | 1 => .operate (.push "a" [2] (sampleOptions []) [])
  | 2 => .pushSymbols "a" [1]
  | 3 => .pushSymbols "a" [2]

/-- As before, and the first version is purged at last. -/
def samplePurge : Fin 5 → Task symbolHost
  | 4 => .operate (.purge "a" sampleKey)
  | t => samplePdbs ⟨t % 4, Nat.mod_lt _ (by decide)⟩

variable {tasks : T → Task host} {s : Store T}

/-- In every run in which no step leaves a claim without its bytes: once all
tasks are done, each symbol row has stored bytes that were verified for its
version. In every run at all, whoever is about to store bytes under a key owns
its claim. -/
theorem symbols_consistent :
    (s.SymbolsStored → (∀ k, s.versionLock k = none) → ∀ c,
      (server T).Reaches (fun w e _ => leavesBytes tasks w e = true) (working s tasks) c →
      (∀ t, ∃ a, c.threads t = .done a) → ∀ key k, c.world.state.db.findSymbol key = some k →
      ∃ bytes, c.world.state.storage.symbolFiles key = some bytes ∧
        VerifiedFor host.symbols s k key bytes c.world.past) ∧
    ∀ c, (server T).Reaches (fun _ _ _ => True) (working s tasks) c → ∀ t key bytes next,
      c.threads t = .call (.storage (.storeSymbolFile key bytes)) next →
      ∃ k, (tasks t).symbolVersion = some k ∧ c.world.state.db.findSymbol key = some k := by
  refine ⟨fun hstart hfree c h hdone key k howner => ?_, fun c h t key bytes next ht => ?_⟩
  · let R : SymbolRun T host := ⟨tasks, s, True, False⟩
    have keeps : R.protocol.Keeps (server T) c :=
      R.keeps (fun _ => hstart) (h.mono fun _ _ _ h => ⟨fun _ => h, False.elim⟩)
    have rows := keeps.1.1 k (unlocked_of_done hfree h hdone k)
    obtain ⟨hstored, hsound⟩ := rows key howner
    exact hsound (hstored.resolve_right List.not_mem_nil) trivial
  · let R : SymbolRun T host := ⟨tasks, s, False, False⟩
    have keeps : R.protocol.Keeps (server T) c :=
      R.keeps False.elim (h.mono fun _ _ _ _ => ⟨False.elim, False.elim⟩)
    let call : Call := .storage (.storeSymbolFile key bytes)
    obtain ⟨r, w, hp⟩ : ∃ r w, (server T).perform t call false c.world = some (r, w) :=
      ⟨_, _, rfl⟩
    have hguar := (keeps.step ht hp ⟨task_disciplined_step h ht hp, False.elim, False.elim⟩).1
    exact hguar.2 _ _ ((server T).perform_eq_some.mp hp).2 key bytes rfl

/-- The claims of the first version's symbols have their bytes. -/
theorem symbols_consistent_sample :
    ∃ c, (server (Fin 4)).run (working (Store.empty _) samplePdbs)
        (calls 0 9 ++ calls 1 9 ++ calls 2 13 ++ calls 3 13) = some c ∧
      ∃ bytes, c.world.state.storage.symbolFiles samplePdb = some bytes ∧
        VerifiedFor symbolHost.symbols (Store.empty (Fin 4)) sampleKey samplePdb bytes
          c.world.past := by
  let start := working (Store.empty (Fin 4)) samplePdbs
  let schedule : List (Fin 4 × Bool) := calls 0 9 ++ calls 1 9 ++ calls 2 13 ++ calls 3 13
  have passed : (server (Fin 4)).runs (fun w e _ => leavesBytes samplePdbs w e) start schedule =
      true := by
    decide +kernel
  obtain ⟨c, hrun, hreach⟩ : ∃ c, (server (Fin 4)).run start schedule = some c ∧
      (server (Fin 4)).Reaches (fun w e _ => leavesBytes samplePdbs w e = true) start c :=
    Machine.Reaches.of_runs (fun _ _ _ h => h) passed
  have final : ((server (Fin 4)).run start schedule).map (fun c =>
      (decide (∀ t, (c.threads t).nextCall = none), c.world.state.db.findSymbol samplePdb)) =
      some (true, some sampleKey) := by
    decide +kernel
  simp only [hrun, Option.map_some, Option.some.injEq, Prod.mk.injEq, decide_eq_true_eq] at final
  obtain ⟨hdone, howner⟩ := final
  have stored : (Store.empty (Fin 4)).SymbolsStored := fun _ h => by
    simp [Store.empty, Database.empty, Database.findSymbol] at h
  refine ⟨c, hrun, symbols_consistent.1 stored (fun _ => rfl) c hreach (fun t => ?_) _ _ howner⟩
  exact Program.nextCall_eq_none.mp (hdone t)

/-- The first version's push gives up after it has stored its symbol. Between
the deletion of its row and of its file the other push claims and stores the
same symbol, whose bytes are gone once both are done. -/
theorem release_deletes_bytes_of_other_claim :
    ∃ c, (server (Fin 4)).run (working (Store.empty _) samplePdbs)
        (calls 0 9 ++ calls 1 9 ++ calls 2 10 ++ [(2, true)] ++ calls 2 1 ++ calls 3 13 ++
          calls 2 2) = some c ∧
      (∀ t, (c.threads t).nextCall = none) ∧
      c.world.state.db.findSymbol samplePdb = some otherKey ∧
      c.world.state.storage.symbolFiles samplePdb = none := by
  let start := working (Store.empty (Fin 4)) samplePdbs
  let schedule : List (Fin 4 × Bool) :=
    calls 0 9 ++ calls 1 9 ++ calls 2 10 ++ [(2, true)] ++ calls 2 1 ++ calls 3 13 ++ calls 2 2
  obtain ⟨c, hrun⟩ : ∃ c, (server (Fin 4)).run start schedule = some c :=
    Option.isSome_iff_exists.mp (by decide +kernel)
  have final : ((server (Fin 4)).run start schedule).map (fun c =>
      (decide (∀ t, (c.threads t).nextCall = none), c.world.state.db.findSymbol samplePdb,
        c.world.state.storage.symbolFiles samplePdb)) = some (true, some otherKey, none) := by
    decide +kernel
  simp only [hrun, Option.map_some, Option.some.injEq, Prod.mk.injEq, decide_eq_true_eq] at final
  exact ⟨c, hrun, final⟩

/-- In every run in which pushes that succeed own what they verified, and pushes
that undo their claims spare what others own: what a successful push verified is
findable, with those bytes, until the symbols of its version are purged or
replaced by a push of their own. -/
theorem pushed_symbols_stay
    (h : (server T).Reaches (fun w e _ => sparesOthers tasks w e = true ∧
      ownsVerified host.symbols w e = true) (working s tasks) c)
    {k : VersionKey} {key : SymbolKey} {bytes : Content}
    (hpushed : Standing tasks k key bytes c.world.past) :
    c.world.state.db.findSymbol key = some k ∧
      c.world.state.storage.symbolFiles key = some bytes := by
  let R : SymbolRun T host := ⟨tasks, s, False, True⟩
  have keeps : R.protocol.Keeps (server T) c :=
    R.keeps False.elim (h.mono fun _ _ _ h => ⟨False.elim, fun _ => h⟩)
  have stands := keeps.1.2 k trivial key bytes hpushed
  exact ⟨stands.owner, stands.file⟩

/-- The symbol of the second version outlives the purge of the first. -/
theorem pushed_symbols_stay_sample :
    ∃ c, (server (Fin 5)).run (working (Store.empty _) samplePurge)
        (calls 0 9 ++ calls 1 9 ++ calls 3 13 ++ calls 4 9) = some c ∧
      c.world.state.db.findSymbol samplePdb = some otherKey ∧
      c.world.state.storage.symbolFiles samplePdb = some [9] := by
  let start := working (Store.empty (Fin 5)) samplePurge
  let schedule : List (Fin 5 × Bool) := calls 0 9 ++ calls 1 9 ++ calls 3 13 ++ calls 4 9
  have passed : (server (Fin 5)).runs (fun w e _ => sparesOthers samplePurge w e &&
      ownsVerified symbolHost.symbols w e) start schedule = true := by
    decide +kernel
  obtain ⟨c, hrun, hreach⟩ : ∃ c, (server (Fin 5)).run start schedule = some c ∧
      (server (Fin 5)).Reaches (fun w e _ => sparesOthers samplePurge w e = true ∧
        ownsVerified symbolHost.symbols w e = true) start c :=
    Machine.Reaches.of_runs (fun _ _ _ h => Bool.and_eq_true_iff.mp h) passed
  have final : ((server (Fin 5)).run start schedule).map (fun c =>
      decide (Standing samplePurge otherKey samplePdb [9] c.world.past)) = some true := by
    decide +kernel
  simp only [hrun, Option.map_some, Option.some.injEq, decide_eq_true_eq] at final
  exact ⟨c, hrun, pushed_symbols_stay hreach final⟩

/-- The purge of the version that was first to push a symbol deletes it, though
the other version's push has verified it as well. -/
theorem purge_deletes_pushed_symbol :
    ∃ c, (server (Fin 5)).run (working (Store.empty _) samplePurge)
        (calls 0 9 ++ calls 1 9 ++ calls 2 13 ++ calls 3 13 ++ calls 4 10) = some c ∧
      Standing samplePurge otherKey samplePdb [9] c.world.past ∧
      c.world.state.db.findSymbol samplePdb = none ∧
      c.world.state.storage.symbolFiles samplePdb = none := by
  let start := working (Store.empty (Fin 5)) samplePurge
  let schedule : List (Fin 5 × Bool) :=
    calls 0 9 ++ calls 1 9 ++ calls 2 13 ++ calls 3 13 ++ calls 4 10
  obtain ⟨c, hrun⟩ : ∃ c, (server (Fin 5)).run start schedule = some c :=
    Option.isSome_iff_exists.mp (by decide +kernel)
  have final : ((server (Fin 5)).run start schedule).map (fun c =>
      (decide (Standing samplePurge otherKey samplePdb [9] c.world.past),
        c.world.state.db.findSymbol samplePdb, c.world.state.storage.symbolFiles samplePdb)) =
      some (true, none, none) := by
    decide +kernel
  simp only [hrun, Option.map_some, Option.some.injEq, Prod.mk.injEq, decide_eq_true_eq] at final
  exact ⟨c, hrun, final⟩

end YaNuget
