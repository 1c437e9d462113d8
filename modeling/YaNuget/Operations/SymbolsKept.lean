import YaNuget.Concurrency.Traces
import YaNuget.Concurrency.Triples
import YaNuget.Operations.LockedSlices
import YaNuget.Operations.SymbolClaims
import YaNuget.Operations.VersionRows

/-!
# Symbols under the lock of their version

The symbols of a version are the business of whoever holds the version's lock:
other tasks leave its rows alone, and the bytes of every claim that awaits
none. A push that undoes its claims no longer holds the locks of their keys, so
this rests on which bytes it finds there.
-/
namespace YaNuget

open Concurrency Op Fallible Protocol

variable {T : Type} {host : Host}

section Conditions

variable (tasks : T → Task host) (w : StoreWorld T) (e : StoreEvent T)

/-- No claim is left without its bytes. A push that undoes its claims deletes
bytes only under a key that no version claims, or whose push has yet to store
them, and fails to delete a claim only if its bytes are stored; a purge fails to
delete the rows of a version only if the bytes of all of them are there. -/
def leavesBytes : Bool :=
  match (tasks e.thread).symbolVersion, e.call with
  | some _, .storage (.deleteSymbol s) =>
    e.choice || (w.state.db.findSymbol s).isNone || awaits s w.past
  | some _, .db (.deleteSymbol s) => !e.choice || !awaits s w.past
  | _, .db (.deleteSymbols k) =>
    !e.choice || (w.state.db.findSymbols k).all fun s => (w.state.storage.symbolFiles s).isSome
  | _, _ => true

/-- A push that undoes its claims deletes no bytes that another version's push
has stored under a claim of its own. -/
def sparesOthers : Bool :=
  match (tasks e.thread).symbolVersion, e.call with
  | some k, .storage (.deleteSymbol s) =>
    e.choice || awaits s w.past || (w.state.db.findSymbol s).all fun owner => owner = k
  | _, _ => true

end Conditions

/-- A push that succeeds owns every key it verified, and no other file of the
SHA-256 of the one it verified is stored there. -/
def ownsVerified (reader : SymbolReader) (w : StoreWorld T) (e : StoreEvent T) : Bool :=
  match e.call with
  | .symbolsIndexed k verified => verified.all fun f =>
    (w.state.db.findSymbol f.1 = some k : Bool) && (w.state.storage.symbolFiles f.1).all fun stored =>
      stored = f.2 || reader.sha256 stored ≠ reader.sha256 f.2
  | _ => true

/-- The tasks of a server, the store they start on, and what is assumed of
their run. -/
structure SymbolRun (T : Type) (host : Host) where
  tasks : T → Task host
  start : Store T
  /-- No step leaves a claim without its bytes. -/
  whole : Prop
  /-- Pushes own what they verify, and spare what they do not own. -/
  owned : Prop

theorem Call.not_purgesSymbols_of_aside {c : Call} (h : c.aside) (k : VersionKey) :
    ¬ c.purgesSymbols k := by
  cases c with
  | db q => cases q <;> first | exact h.elim | exact id
  | _ => exact id

/-- The bytes were stored for the version from the start, or were verified
against a package that was stored for it. -/
def VerifiedFor (reader : SymbolReader) (start : Store T) (k : VersionKey) (s : SymbolKey)
    (bytes : Content) (past : List (StoreEvent T)) : Prop :=
  (start.db.findSymbol s = some k ∧ start.storage.symbolFiles s = some bytes) ∨
    ∃ e ∈ past, ∃ package, e.Shows (.storage (.openPackage k)) (.ok package) ∧
      ∃ entries verified, verify reader package entries = .ok verified ∧ ⟨s, bytes⟩ ∈ verified

theorem VerifiedFor.mono {reader : SymbolReader} {start : Store T} {k : VersionKey}
    {s : SymbolKey} {bytes : Content} {past past' : List (StoreEvent T)}
    (hpast : ∀ e ∈ past, e ∈ past') (h : VerifiedFor reader start k s bytes past) :
    VerifiedFor reader start k s bytes past' :=
  h.imp_right fun ⟨e, he, hverified⟩ => ⟨e, hpast e he, hverified⟩

/-- What a step of others leaves alone of the symbols of version `k`. -/
structure Unmoved (tasks : T → Task host) (safe : Prop) (k : VersionKey)
    (w w' : StoreWorld T) : Prop where
  owner : ∀ s, w'.state.db.findSymbol s = some k ↔ w.state.db.findSymbol s = some k
  awaits : ∀ s, w.state.db.findSymbol s = some k → awaits s w'.past = awaits s w.past
  file : safe → ∀ s, w.state.db.findSymbol s = some k → YaNuget.awaits s w.past = false →
    w'.state.storage.symbolFiles s = w.state.storage.symbolFiles s
  standing : ∀ s bytes, Standing tasks k s bytes w'.past ↔ Standing tasks k s bytes w.past
  past : ∀ e ∈ w.past, e ∈ w'.past

/-- The symbol is there, owned by version `k`, with these bytes. -/
structure Stands (k : VersionKey) (s : SymbolKey) (bytes : Content) (w : StoreWorld T) : Prop where
  owner : w.state.db.findSymbol s = some k
  file : w.state.storage.symbolFiles s = some bytes
  awaits : awaits s w.past = false

theorem Stands.of_unmoved {tasks : T → Task host} {safe : Prop} {k : VersionKey} {s : SymbolKey}
    {bytes : Content} {w w' : StoreWorld T} (h : Stands k s bytes w)
    (hu : Unmoved tasks safe k w w') (hsafe : safe) :
    Stands k s bytes w' where
  owner := (hu.owner s).mpr h.owner
  file := (hu.file hsafe s h.owner h.awaits).trans h.file
  awaits := (hu.awaits s h.owner).trans h.awaits

namespace SymbolRun

variable (R : SymbolRun T host)

def safe : Prop := R.whole ∨ R.owned

/-- The bytes of a claim of version `k` were verified for it. -/
def Sound (k : VersionKey) (s : SymbolKey) (w : StoreWorld T) : Prop :=
  ∃ bytes, w.state.storage.symbolFiles s = some bytes ∧
    VerifiedFor host.symbols R.start k s bytes w.past

/-- Each claim of version `k` has its bytes; those of `doubt` may await them. -/
def Rows (k : VersionKey) (doubt : List SymbolKey) (w : StoreWorld T) : Prop :=
  ∀ s, w.state.db.findSymbol s = some k → (awaits s w.past = false ∨ s ∈ doubt) ∧
    (awaits s w.past = false → R.whole → R.Sound k s w)

/-- What was verified for version `k` in a push that succeeded is there. -/
def Upheld (k : VersionKey) (w : StoreWorld T) : Prop :=
  R.owned → ∀ s bytes, Standing R.tasks k s bytes w.past → Stands k s bytes w

/-- While nobody holds the lock of a version, its claims have their bytes. -/
def protocol : Protocol T Call Call.Answer Bool (Store T) where
  inv w := (∀ k, w.state.versionLock k = none → R.Rows k [] w) ∧ ∀ k, R.Upheld k w
  guar t w w' := (∀ k, w.state.versionLock k ≠ some t → Unmoved R.tasks R.safe k w w') ∧
    ∀ e past, w'.past = e :: past → ∀ s bytes, e.call = .storage (.storeSymbolFile s bytes) →
      ∃ k, (R.tasks t).symbolVersion = some k ∧ w.state.db.findSymbol s = some k
  allow w e w' := Disciplined w e w' ∧ (R.whole → leavesBytes R.tasks w e = true) ∧
    (R.owned → sparesOthers R.tasks w e = true ∧ ownsVerified host.symbols w e = true)

/-- What version `k` knows of its symbols, however other tasks move. -/
def Kept (k : VersionKey) (B : StoreWorld T → Prop) : Prop :=
  ∀ w w', Unmoved R.tasks R.safe k w w' → B w → B w'

variable {R} {k : VersionKey} {B B' : StoreWorld T → Prop} {doubt doubt' : List SymbolKey}
variable {w w' : StoreWorld T}

theorem Kept.and (h : R.Kept k B) (h' : R.Kept k B') : R.Kept k fun w => B w ∧ B' w :=
  fun w w' hu hw => ⟨h w w' hu hw.1, h' w w' hu hw.2⟩

theorem Sound.of_same {s : SymbolKey} (h : R.Sound k s w) (hpast : ∀ e ∈ w.past, e ∈ w'.past)
    (hfile : w'.state.storage.symbolFiles s = w.state.storage.symbolFiles s) : R.Sound k s w' :=
  h.imp fun _ hbytes => ⟨hfile.trans hbytes.1, hbytes.2.mono hpast⟩

/-- Claims that are as they were keep their bytes. -/
theorem Rows.of_same (h : R.Rows k doubt w) (hpast : ∀ e ∈ w.past, e ∈ w'.past)
    (hsame : ∀ s, w'.state.db.findSymbol s = some k → w.state.db.findSymbol s = some k ∧
      awaits s w'.past = awaits s w.past ∧ (R.whole → awaits s w.past = false →
        w'.state.storage.symbolFiles s = w.state.storage.symbolFiles s)) :
    R.Rows k doubt w' := by
  intro s hs
  obtain ⟨hs', hawaits, hfile⟩ := hsame s hs
  rw [hawaits]
  exact ⟨(h s hs').1, fun hstored hwhole =>
    ((h s hs').2 hstored hwhole).of_same hpast (hfile hwhole hstored)⟩

theorem kept_rows : R.Kept k (R.Rows k doubt) := fun _ _ hu hw =>
  hw.of_same hu.past fun s hs =>
    have hs' := (hu.owner s).mp hs
    ⟨hs', hu.awaits s hs', fun hwhole hstored => hu.file (Or.inl hwhole) s hs' hstored⟩

theorem Rows.mono (h : R.Rows k doubt w) (hdoubt : ∀ s ∈ doubt, s ∈ doubt') : R.Rows k doubt' w :=
  fun s hs => ⟨(h s hs).1.imp_right (hdoubt s), (h s hs).2⟩

section Steps

variable (R) in
/-- What the task `t` that holds the lock of version `k` has to see to at a call:
that it is about symbols of `k` only. -/
def Minds (t : T) (k : VersionKey) (o : Bool) (w : StoreWorld T) : Call → Prop
  | .db (.addSymbol _ k') | .db (.findSymbols k') | .db (.deleteSymbols k')
  | .db (.deletePackageData k') | .symbolsIndexed k' _ => k' = k
  | .db (.deleteSymbol s) => ∀ k', w.state.db.findSymbol s = some k' → k' = k
  | .storage (.deleteSymbol s) => R.safe → o = false →
    ∀ k', w.state.db.findSymbol s = some k' → k' = k ∨ awaits s w.past = true
  | .storage (.storeSymbolFile s _) =>
    (R.tasks t).symbolVersion = some k ∧ w.state.db.findSymbol s = some k
  | _ => True

variable {t : T} {c : Call} {o : Bool}

theorem Minds.purges (h : R.Minds t k o w c) {k' : VersionKey} (hc : c.purgesSymbols k') :
    k' = k := by
  cases c with
  | db q => cases q <;> first | exact hc.elim | exact hc.symm.trans h
  | _ => exact hc.elim

variable [DecidableEq T] {r : c.Answer}

theorem Minds.unmoved (h : R.Minds t k o w c) (hp : (server T).perform t c o w = some (r, w'))
    {k' : VersionKey} (hk : k' ≠ k) : Unmoved R.tasks R.safe k' w w' where
  owner s := by
    rcases owner_of_perform hp s with heq | ⟨k₁, hc, hbefore, hafter⟩ | ⟨rfl, hafter⟩ |
      ⟨k₁, rfl, hbefore, hafter⟩
    · rw [heq]
    · have hne : k₁ ≠ k' := by
        refine fun heq => hk (heq.symm.trans (h.purges ?_))
        rcases hc with rfl | rfl <;> rfl
      simp [hbefore, hafter, hne]
    · rw [hafter]
      exact ⟨by simp, fun hs => (hk (h k' hs)).elim⟩
    · have hne : k₁ ≠ k' := fun heq => hk (heq.symm.trans h)
      simp [hbefore, hafter, hne]
  awaits s hs := by
    rcases awaits_of_perform hp s with heq | ⟨_, -, hnone, -⟩ | ⟨rfl, -⟩ | ⟨bytes, rfl, -, -⟩
    · exact heq
    · simp [hs] at hnone
    · exact (hk (h k' hs)).elim
    · exact (hk (Option.some.inj (hs.symm.trans h.2))).elim
  file hsafe s hs hawaits := by
    rcases symbolFile_of_perform hp s with heq | ⟨rfl, ho, -⟩ | ⟨bytes, rfl, -, -⟩
    · exact heq
    · rcases h hsafe ho k' hs with hsame | htrue
      · exact (hk hsame).elim
      · simp [hawaits] at htrue
    · exact (hk (Option.some.inj (hs.symm.trans h.2))).elim
  standing s bytes := by
    rw [((server T).perform_eq_some.mp hp).2, Standing]
    constructor
    · rintro (⟨verified, rfl, -⟩ | ⟨-, -, hstanding⟩)
      · exact (hk h).elim
      · exact hstanding
    · refine fun hstanding => Or.inr ⟨fun hc => hk (h.purges hc), ?_, hstanding⟩
      rintro ⟨hversion, -, other, -, rfl⟩
      exact hk (Option.some.inj (hversion.symm.trans h.1))
  past e he := by
    rw [((server T).perform_eq_some.mp hp).2]
    exact List.mem_cons_of_mem _ he

/-- A step that moves the symbols of version `k` only, whose lock its task holds,
keeps the protocol if it keeps what stands of `k`. -/
theorem step_within (hp : (server T).perform t c o w = some (r, w'))
    (hlock : w'.state.versionLock = w.state.versionLock) (hheld : w.state.versionLock k = some t)
    (hminds : R.Minds t k o w c) (hinv : R.protocol.inv w)
    (hupheld : R.Upheld k w') : R.protocol.inv w' ∧ R.protocol.guar t w w' := by
  have unmoved : ∀ k', k' ≠ k → Unmoved R.tasks R.safe k' w w' := fun k' hk => hminds.unmoved hp hk
  refine ⟨⟨fun k' hk => ?_, fun k' howned s bytes hstanding => ?_⟩, fun k' hk => ?_, ?_⟩
  · rw [hlock] at hk
    exact kept_rows w w' (unmoved k' (by rintro rfl; simp [hheld] at hk)) (hinv.1 k' hk)
  · by_cases hk : k' = k
    · subst hk
      exact hupheld howned s bytes hstanding
    · have hu := unmoved k' hk
      have stands := hinv.2 k' howned s bytes ((hu.standing s bytes).mp hstanding)
      exact stands.of_unmoved hu (Or.inr howned)
  · exact unmoved k' (by rintro rfl; exact hk hheld)
  · intro e past he s bytes hc
    obtain ⟨rfl, -⟩ := List.cons.inj (((server T).perform_eq_some.mp hp).2.symm.trans he)
    obtain rfl : c = _ := hc
    exact ⟨k, hminds⟩

theorem unmoved_of_aside (hp : (server T).perform t c o w = some (r, w')) (hc : c.aside)
    (k : VersionKey) : Unmoved R.tasks R.safe k w w' where
  owner s := by
    rcases owner_of_perform hp s with heq | ⟨_, rfl | rfl, -⟩ | ⟨rfl, -⟩ | ⟨_, rfl, -⟩
    · rw [heq]
    all_goals exact hc.elim
  awaits s _ := by
    rcases awaits_of_perform hp s with heq | ⟨_, rfl, -⟩ | ⟨rfl, -⟩ | ⟨_, rfl, -⟩
    · exact heq
    all_goals exact hc.elim
  file _ s _ _ := by
    rcases symbolFile_of_perform hp s with heq | ⟨rfl, -⟩ | ⟨_, rfl, -⟩
    · exact heq
    all_goals exact hc.elim
  standing s bytes := by
    rw [((server T).perform_eq_some.mp hp).2, Standing]
    constructor
    · rintro (⟨verified, rfl, -⟩ | ⟨-, -, hstanding⟩)
      · exact hc.elim
      · exact hstanding
    · refine fun hstanding => Or.inr ⟨Call.not_purgesSymbols_of_aside hc k, ?_, hstanding⟩
      rintro ⟨-, -, other, -, rfl⟩
      exact hc.elim
  past e he := by
    rw [((server T).perform_eq_some.mp hp).2]
    exact List.mem_cons_of_mem _ he

theorem versionLock_of_minor (hp : (server T).perform t c o w = some (r, w')) (hc : c.minor) :
    w'.state.versionLock = w.state.versionLock := by
  rcases Store.exec_versionLock ((server T).perform_eq_some.mp hp).1 with
    ⟨k, rfl, -⟩ | ⟨k, rfl, -⟩ | ⟨-, heq⟩
  · exact hc.elim
  · exact hc.elim
  · exact heq

/-- A call about other things keeps the protocol, if each version whose lock it
releases has the bytes of its claims. -/
theorem step_aside (hp : (server T).perform t c o w = some (r, w')) (hc : c.aside)
    (hinv : R.protocol.inv w) (hfreed : ∀ k, w'.state.versionLock k = none →
      w.state.versionLock k = none ∨ R.Rows k [] w) :
    R.protocol.inv w' ∧ R.protocol.guar t w w' := by
  have unmoved : ∀ k, Unmoved R.tasks R.safe k w w' := unmoved_of_aside hp hc
  refine ⟨⟨fun k hk => ?_, fun k howned s bytes hstanding => ?_⟩, fun k _ => unmoved k, ?_⟩
  · exact kept_rows w w' (unmoved k) ((hfreed k hk).elim (hinv.1 k) id)
  · have stands := hinv.2 k howned s bytes (((unmoved k).standing s bytes).mp hstanding)
    exact stands.of_unmoved (unmoved k) (Or.inr howned)
  · rintro e past he s bytes hstore
    obtain ⟨rfl, -⟩ := List.cons.inj (((server T).perform_eq_some.mp hp).2.symm.trans he)
    obtain rfl : c = _ := hstore
    exact hc.elim

theorem step_of_minor (hp : (server T).perform t c o w = some (r, w')) (hc : c.minor)
    (hinv : R.protocol.inv w) : R.protocol.inv w' ∧ R.protocol.guar t w w' := by
  refine step_aside hp (Call.aside_of_minor hc) hinv fun k hk => Or.inl ?_
  rwa [versionLock_of_minor hp hc] at hk

end Steps

section Rules

variable [DecidableEq T] {t : T} {α : Type} {x : Op α} {ks : List VersionKey}

def Holding (t : T) (k : VersionKey) (B : StoreWorld T → Prop) (w : StoreWorld T) : Prop :=
  w.state.versionLock k = some t ∧ B w

variable (R) in
/-- Task `t` holds the locks of versions whose claims have their bytes. -/
def Locked (t : T) (ks : List VersionKey) (w : StoreWorld T) : Prop :=
  ∀ k ∈ ks, Holding t k (R.Rows k []) w

variable (R) in
/-- From `A`, task `t` runs `x` and keeps the protocol; it ends in `B` or, on an error, in `E`. -/
abbrev Symbols (t : T) (A : StoreWorld T → Prop) (x : Op α) (B : α → StoreWorld T → Prop)
    (E : StoreWorld T → Prop) : Prop :=
  Triple (server T) R.protocol t A x B E

theorem stable_holding (hB : R.Kept k B) : R.protocol.Stable (server T) t (Holding t k B) := by
  rintro u hu w w' ⟨c, o, r, hp, -, -, -, hguar⟩ ⟨hlock, hw⟩
  have unmoved := hguar.1 k (by rw [hlock]; exact fun h => hu (Option.some.inj h).symm)
  exact ⟨versionLock_of_perform hp hu hlock, hB w w' unmoved hw⟩

theorem stable_locked : R.protocol.Stable (server T) t (R.Locked t ks) :=
  fun u hu w w' hmove h k hk => stable_holding kept_rows u hu w w' hmove (h k hk)

theorem symbols_minor (hB : R.Kept k B) (hx : x.run.Calls Call.minor) :
    R.Symbols t (Holding t k B) x (fun _ => Holding t k B) (Holding t k B) := by
  refine Triple.of_maintains (Protocol.Maintains.of_calls (stable_holding hB) ?_ hx)
  rintro c hc w ⟨hlock, hw⟩ hinv o r w' hp -
  obtain ⟨hinv', hguar⟩ := step_of_minor hp hc hinv
  refine ⟨hinv', hguar, ?_, hB w w' (unmoved_of_aside hp (Call.aside_of_minor hc) k) hw⟩
  rw [versionLock_of_minor hp hc]
  exact hlock

/-- A section under the lock of its version. -/
theorem symbols_withVersionLock
    (h : R.protocol.Maintains (server T) t (R.Locked t (k :: ks)) x) :
    R.protocol.Maintains (server T) t (R.Locked t ks) (withVersionLock k x) := by
  intro w hw
  refine Protocol.Safe.call stable_locked hw fun w hw hinv o _ w₁ hp _ => ?_
  obtain ⟨hfree, hstate⟩ := perform_lockVersion hp
  have hks : ∀ k' ∈ ks, k' ≠ k := by
    rintro k' hk' rfl
    simp [(hw k' hk').1] at hfree
  have hrows : ∀ k', R.Rows k' [] w → R.Rows k' [] w₁ := fun k' =>
    kept_rows w w₁ (unmoved_of_aside hp trivial k')
  obtain ⟨hinv₁, hguar₁⟩ := step_aside hp trivial hinv fun k' hk' => Or.inl <| by
    rw [hstate] at hk'
    by_cases hk : k' = k
    · exact hk ▸ hfree
    · exact (Function.update_of_ne hk ..).symm.trans hk'
  refine ⟨hinv₁, hguar₁, ?_⟩
  have hlocked : R.Locked t (k :: ks) w₁ := by
    intro k' hk'
    rcases List.mem_cons.mp hk' with rfl | hk'
    · exact ⟨by rw [hstate]; exact Function.update_self .., hrows k' (hinv.1 k' hfree)⟩
    · refine ⟨?_, hrows k' (hw k' hk').2⟩
      rw [hstate]
      exact (Function.update_of_ne (hks k' hk') ..).trans (hw k' hk').1
  refine Protocol.Safe.bindExcept (Protocol.Safe.bind ((h w₁ hlocked).mono ?_))
  intro result w hw
  refine Protocol.Safe.call stable_locked hw fun w hw hinv o _ w₂ hp _ => ?_
  obtain ⟨hheld, hstate⟩ := perform_unlockVersion hp
  obtain ⟨hinv₂, hguar₂⟩ := step_aside hp trivial hinv fun k' hk' => by
    rw [hstate] at hk'
    by_cases hk : k' = k
    · exact Or.inr (hk ▸ (hw k List.mem_cons_self).2)
    · exact Or.inl ((Function.update_of_ne hk ..).symm.trans hk')
  refine ⟨hinv₂, hguar₂, fun k' hk' => ⟨?_, ?_⟩⟩
  · rw [hstate]
    exact (Function.update_of_ne (hks k' hk') ..).trans (hw k' (List.mem_cons_of_mem k hk')).1
  · exact kept_rows w w₂ (unmoved_of_aside hp trivial k') (hw k' (List.mem_cons_of_mem k hk')).2

theorem symbols_withVersionLocks {locks : List VersionKey}
    (h : R.protocol.Maintains (server T) t (R.Locked t (locks.reverse ++ ks)) x) :
    R.protocol.Maintains (server T) t (R.Locked t ks) (withVersionLocks locks x) := by
  induction locks generalizing ks with
  | nil => exact h
  | cons k locks ih => exact symbols_withVersionLock (ih (by simpa using h))

theorem maintains_minor (hx : x.run.Calls Call.minor) :
    R.protocol.Maintains (server T) t (R.Locked t ks) x := by
  refine Protocol.Maintains.of_calls stable_locked ?_ hx
  rintro c hc w hw hinv o r w' hp -
  obtain ⟨hinv', hguar⟩ := step_of_minor hp hc hinv
  refine ⟨hinv', hguar, fun k hk => ⟨?_, ?_⟩⟩
  · rw [versionLock_of_minor hp hc]
    exact (hw k hk).1
  · exact kept_rows w w' (unmoved_of_aside hp (Call.aside_of_minor hc) k) (hw k hk).2

/-- A call that may be about the symbols of version `k`. -/
theorem symbols_call {c : Call} {next : c.Answer → Except Error α}
    {Q : α → StoreWorld T → Prop} {E : StoreWorld T → Prop}
    (hx : x.run = .call c fun r => .done (next r))
    (hc : ∀ k', c ≠ .lockVersion k' ∧ c ≠ .unlockVersion k') (hB : R.Kept k B)
    (h : ∀ w, Holding t k B w → R.protocol.inv w → ∀ o r w',
      (server T).perform t c o w = some (r, w') → R.protocol.allow w ⟨t, c, o, r⟩ w' →
      R.Minds t k o w c ∧ R.Upheld k w' ∧ match next r with
        | .ok a => Q a w'
        | .error _ => E w') :
    R.Symbols t (Holding t k B) x (fun a => Holding t k (Q a)) (Holding t k E) := by
  intro w hw
  rw [hx]
  refine Protocol.Safe.call (stable_holding hB) hw fun w hw hinv o r w' hp ha => ?_
  obtain ⟨hminds, hupheld, hr⟩ := h w hw hinv o r w' hp ha
  have hlock : w'.state.versionLock = w.state.versionLock := by
    rcases Store.exec_versionLock ((server T).perform_eq_some.mp hp).1 with
      ⟨k', hk', -⟩ | ⟨k', hk', -⟩ | ⟨-, heq⟩
    · exact ((hc k').1 hk').elim
    · exact ((hc k').2 hk').elim
    · exact heq
  obtain ⟨hinv', hguar⟩ := step_within hp hlock hw.1 hminds hinv hupheld
  have hheld : w'.state.versionLock k = some t := by
    rw [hlock]
    exact hw.1
  refine ⟨hinv', hguar, ?_⟩
  cases hnext : next r with
  | ok a =>
    rw [hnext] at hr
    exact ⟨hheld, hr⟩
  | error e =>
    rw [hnext] at hr
    exact ⟨hheld, hr⟩

end Rules

section Purge

variable [DecidableEq T] {t : T}

variable (R k) in
/-- The symbols of version `k` are being purged: those of `found`, and no others. -/
structure Purging (found : List SymbolKey) (w : StoreWorld T) : Prop where
  rows : ∀ s, w.state.db.findSymbol s = some k → awaits s w.past = false ∧
    (R.whole → w.state.storage.symbolFiles s = none ∨ R.Sound k s w)
  fallen : ∀ s bytes, ¬ Standing R.tasks k s bytes w.past
  found : ∀ s ∈ found, w.state.db.findSymbol s = some k

omit [DecidableEq T] in
theorem kept_purging (found : List SymbolKey) : R.Kept k (R.Purging k found) := by
  intro w w' hu hw
  refine ⟨fun s hs => ?_, fun s bytes hstanding => ?_, fun s hs => (hu.owner s).mpr (hw.found s hs)⟩
  · have hs' := (hu.owner s).mp hs
    obtain ⟨hawaits, hrow⟩ := hw.rows s hs'
    refine ⟨(hu.awaits s hs').trans hawaits, fun hwhole => ?_⟩
    have hfile := hu.file (Or.inl hwhole) s hs' hawaits
    exact (hrow hwhole).imp hfile.trans fun h => h.of_same hu.past hfile
  · exact hw.fallen s bytes ((hu.standing s bytes).mp hstanding)

omit [DecidableEq T] in
theorem Purging.upheld {found : List SymbolKey} (h : R.Purging k found w) : R.Upheld k w :=
  fun _ s bytes hstanding => (h.fallen s bytes hstanding).elim

theorem past_of_perform {c : Call} {o : Bool} {r : c.Answer}
    (hp : (server T).perform t c o w = some (r, w')) : ∀ e ∈ w.past, e ∈ w'.past := fun e he => by
  rw [((server T).perform_eq_some.mp hp).2]
  exact List.mem_cons_of_mem _ he

theorem fallen_of_purges {c : Call} {o : Bool} {r : c.Answer}
    (hp : (server T).perform t c o w = some (r, w')) (hc : c.purgesSymbols k) (s : SymbolKey)
    (bytes : Content) : ¬ Standing R.tasks k s bytes w'.past := by
  rw [((server T).perform_eq_some.mp hp).2, Standing]
  rintro (⟨verified, rfl, -⟩ | ⟨hnot, -⟩)
  · exact hc.elim
  · exact hnot hc

theorem symbols_findSymbols :
    R.Symbols t (Holding t k (R.Rows k [])) (query (.findSymbols k))
      (fun found => Holding t k (R.Purging k found)) (Holding t k (R.Rows k [])) := by
  refine symbols_call rfl (by simp) kept_rows fun w hw hinv o r w' hp _ => ?_
  have howner (s : SymbolKey) : w'.state.db.findSymbol s = w.state.db.findSymbol s := by
    simpa using owner_of_perform hp s
  have hawaits (s : SymbolKey) : awaits s w'.past = awaits s w.past := by
    simpa using awaits_of_perform hp s
  have hfile (s : SymbolKey) : w'.state.storage.symbolFiles s = w.state.storage.symbolFiles s := by
    simpa using symbolFile_of_perform hp s
  have fallen := fallen_of_purges (R := R) (k := k) hp rfl
  have rows : R.Rows k [] w' := hw.2.of_same (past_of_perform hp) fun s hs =>
    ⟨(howner s).symm.trans hs, hawaits s, fun _ _ => hfile s⟩
  refine ⟨rfl, fun _ s bytes h => (fallen s bytes h).elim, ?_⟩
  cases r with
  | error e => exact rows
  | ok found =>
    refine ⟨fun s hs => ?_, fallen, fun s hs => ?_⟩
    · obtain ⟨hstored, hsound⟩ := rows s hs
      have hstored := hstored.resolve_right List.not_mem_nil
      exact ⟨hstored, fun hwhole => Or.inr (hsound hstored hwhole)⟩
    · rcases Store.exec_query (t := t) ((server T).perform_eq_some.mp hp).1 with ⟨hr, -⟩ | ⟨hr, -⟩
      · simp at hr
      · obtain rfl : found = w.state.db.findSymbols k := Except.ok.inj hr
        exact (howner s).trans ((w.state.db.mem_findSymbols k s).mp hs)

/-- The bytes of a symbol of the version are deleted. -/
theorem symbols_deleteFile {found : List SymbolKey} {s : SymbolKey} (hs : s ∈ found) :
    R.Symbols t (Holding t k (R.Purging k found)) (file (.deleteSymbol s))
      (fun _ => Holding t k (R.Purging k found)) (Holding t k fun _ => False) := by
  refine symbols_call rfl (by simp) (kept_purging found) fun w hw hinv o r w' hp _ => ?_
  have howner (s : SymbolKey) : w'.state.db.findSymbol s = w.state.db.findSymbol s := by
    simpa using owner_of_perform hp s
  have hawaits (s : SymbolKey) : awaits s w'.past = awaits s w.past := by
    simpa using awaits_of_perform hp s
  have purging : R.Purging k found w' := by
    refine ⟨fun s' hs' => ?_, fun s' bytes hstanding => hw.2.fallen s' bytes ?_, fun s' hs' =>
      (howner s').trans (hw.2.found s' hs')⟩
    · obtain ⟨hstored, hrow⟩ := hw.2.rows s' ((howner s').symm.trans hs')
      refine ⟨(hawaits s').trans hstored, fun hwhole => ?_⟩
      rcases symbolFile_of_perform hp s' with heq | ⟨-, -, hnone⟩ | ⟨_, hc, -⟩
      · exact (hrow hwhole).imp heq.trans fun h => h.of_same (past_of_perform hp) heq
      · exact Or.inl hnone
      · cases hc
    · simpa [((server T).perform_eq_some.mp hp).2, Standing, Replaces, Call.purgesSymbols] using
        hstanding
  refine ⟨fun _ _ k' hk' => Or.inl ?_, purging.upheld, ?_⟩
  · exact Option.some.inj (hk'.symm.trans (hw.2.found s hs))
  · obtain rfl : r = .ok () := by
      have hexec := ((server T).perform_eq_some.mp hp).1
      cases o with
      | false => exact (congrArg Prod.fst (Option.some.inj hexec)).symm
      | true => exact (congrArg Prod.fst (Option.some.inj hexec)).symm
    exact purging

/-- The rows of the version are deleted, or else its symbols still have their bytes. -/
theorem symbols_deleteRows {found : List SymbolKey} :
    R.Symbols t (Holding t k (R.Purging k found)) (query (.deleteSymbols k))
      (fun _ => Holding t k (R.Rows k [])) (Holding t k (R.Rows k [])) := by
  refine symbols_call rfl (by simp) (kept_purging found) fun w hw hinv o r w' hp ha => ?_
  have hawaits (s : SymbolKey) : awaits s w'.past = awaits s w.past := by
    simpa using awaits_of_perform hp s
  have hfile (s : SymbolKey) : w'.state.storage.symbolFiles s = w.state.storage.symbolFiles s := by
    simpa using symbolFile_of_perform hp s
  have fallen := fallen_of_purges (R := R) (k := k) hp rfl
  refine ⟨rfl, fun _ s bytes h => (fallen s bytes h).elim, ?_⟩
  have hexec := ((server T).perform_eq_some.mp hp).1
  cases o with
  | false =>
    obtain ⟨rfl, hstate⟩ : .ok (w.state.db.deleteSymbols k).1 = r ∧
        { w.state with db := (w.state.db.deleteSymbols k).2 } = w'.state := by
      simpa [server, Store.exec, DbCall.run] using hexec
    intro s hs
    rw [← hstate] at hs
    rcases Database.findSymbol_filter (s := s) (k := k) w.state.db (w.state.db.deleteSymbols k).2
      rfl with ⟨hsame, hne⟩ | ⟨-, hnone⟩
    · exact (hne (hsame.symm.trans hs)).elim
    · simp [hnone] at hs
  | true =>
    obtain ⟨rfl, hstate⟩ : .error .database = r ∧ w.state = w'.state := by
      simpa [server, Store.exec] using hexec
    intro s hs
    rw [← hstate] at hs
    obtain ⟨hstored, hrow⟩ := hw.2.rows s hs
    refine ⟨Or.inl ((hawaits s).trans hstored), fun _ hwhole => ?_⟩
    have hleaves := ha.2.1 hwhole
    have hthere : (w.state.storage.symbolFiles s).isSome := by
      have hall : ∀ s ∈ w.state.db.findSymbols k, (w.state.storage.symbolFiles s).isSome := by
        cases hversion : (R.tasks t).symbolVersion <;> simpa [leavesBytes, hversion] using hleaves
      exact hall s ((w.state.db.mem_findSymbols k s).mpr hs)
    rcases hrow hwhole with hnone | hsound
    · simp [hnone] at hthere
    · exact hsound.of_same (past_of_perform hp) (hfile s)

/-- The rows of the version, and with them its symbols, are deleted. -/
theorem symbols_deletePackageData :
    R.Symbols t (Holding t k (R.Rows k [])) (query (.deletePackageData k))
      (fun _ => Holding t k (R.Rows k [])) (Holding t k (R.Rows k [])) := by
  refine symbols_call rfl (by simp) kept_rows fun w hw hinv o r w' hp _ => ?_
  have fallen := fallen_of_purges (R := R) (k := k) hp rfl
  have rows : R.Rows k [] w' := by
    refine hw.2.of_same (past_of_perform hp) fun s hs => ⟨?_, ?_, fun _ _ => ?_⟩
    · rcases owner_of_perform hp s with heq | ⟨_, -, -, hnone⟩ | ⟨-, hnone⟩ | ⟨_, hc, -⟩
      · exact heq.symm.trans hs
      · simp [hnone] at hs
      · simp [hnone] at hs
      · cases hc
    · simpa using awaits_of_perform hp s
    · simpa using symbolFile_of_perform hp s
  refine ⟨rfl, fun _ s bytes h => (fallen s bytes h).elim, ?_⟩
  cases r with
  | ok _ => exact rows
  | error _ => exact rows

theorem symbols_purgeSymbols :
    R.Symbols t (Holding t k (R.Rows k [])) (purgeSymbols k)
      (fun _ => Holding t k (R.Rows k [])) (Holding t k (R.Rows k [])) := by
  refine Triple.bind symbols_findSymbols fun found => ?_
  have deleted : R.Symbols t (Holding t k (R.Purging k found))
      (found.forM fun s => file (.deleteSymbol s)) (fun _ => Holding t k (R.Purging k found))
      (Holding t k fun _ => False) := Triple.forM fun s hs => symbols_deleteFile hs
  refine Triple.bind (deleted.mono (fun _ h => h) (fun _ _ h => h) fun _ h => h.2.elim) fun _ => ?_
  exact Triple.bind symbols_deleteRows fun _ => Triple.pure fun _ h => h

end Purge

end SymbolRun

end YaNuget
