import YaNuget.Operations.SymbolSections

/-!
# What a symbol push does to symbols

A push that holds the lock of its version decides what becomes of each PDB it
has verified, claims and stores the new ones one after the other, and undoes its
claims when a later step fails. On the way each claim has its bytes, but for the
one whose bytes come next.
-/
namespace YaNuget

open Concurrency Op Fallible Protocol

/-- A PDB that was checked is added under a new key only. -/
theorem nodup_of_verifyEntry {reader : SymbolReader} {package : Content}
    {seen seen' : List Verified} {entry : String × Content} (hseen : (seen.map Verified.key).Nodup)
    (h : verifyEntry reader package seen entry = .ok seen') : (seen'.map Verified.key).Nodup := by
  cases hcheck : reader.checkPdb package entry with
  | error e => simp [verifyEntry, hcheck, bind, Except.bind] at h
  | ok checked =>
    cases checked with
    | none =>
      obtain rfl : seen = seen' := by
        simpa [verifyEntry, hcheck, bind, Except.bind, pure, Except.pure] using h
      exact hseen
    | some key =>
      set v : Verified := ⟨⟨key, fileName entry.1⟩, entry.2⟩
      have hadded : addVerified reader seen entry.1 v = .ok seen' := by
        simpa [verifyEntry, hcheck, bind, Except.bind] using h
      unfold addVerified at hadded
      cases hfound : seen.find? fun other => other.key = v.key with
      | some other =>
        simp only [hfound] at hadded
        split_ifs at hadded
        obtain rfl := Except.ok.inj hadded
        exact hseen
      | none =>
        simp only [hfound] at hadded
        obtain rfl := Except.ok.inj hadded
        have perm := (seen.perm_orderedInsert (fun a b => a.key.before b.key) v).map Verified.key
        rw [perm.nodup_iff, List.map_cons, List.nodup_cons]
        refine ⟨fun hmem => ?_, hseen⟩
        obtain ⟨other, hother, hkey⟩ := List.mem_map.mp hmem
        simpa [hkey] using List.find?_eq_none.mp hfound other hother

/-- The PDBs that were verified have different keys. -/
theorem nodup_of_verify {reader : SymbolReader} {package : Content}
    {entries : List (String × Content)} {vs : List Verified}
    (h : verify reader package entries = .ok vs) : (vs.map Verified.key).Nodup := by
  suffices step : ∀ seen, (seen.map Verified.key).Nodup →
      entries.foldlM (verifyEntry reader package) seen = .ok vs → (vs.map Verified.key).Nodup from
    step [] List.nodup_nil h
  clear h
  induction entries with
  | nil =>
    intro seen hseen h
    obtain rfl : seen = vs := Except.ok.inj h
    exact hseen
  | cons entry entries ih =>
    intro seen hseen h
    rw [List.foldlM_cons] at h
    cases hentry : verifyEntry reader package seen entry with
    | error e => simp [hentry, bind, Except.bind] at h
    | ok seen' =>
      rw [hentry] at h
      exact ih seen' (nodup_of_verifyEntry hseen hentry) h

namespace SymbolRun

variable {T : Type} {host : Host} (R : SymbolRun T host) (k : VersionKey)

/-- The symbol is claimed by version `k`, in no push that has succeeded. -/
def Fresh (s : SymbolKey) (w : StoreWorld T) : Prop :=
  w.state.db.findSymbol s = some k ∧ (R.owned → ∀ bytes, ¬ Standing R.tasks k s bytes w.past)

/-- If version `k` owns the key of the PDB, a file of its SHA-256 is stored there. -/
def Settled (v : Verified) (w : StoreWorld T) : Prop :=
  R.owned → w.state.db.findSymbol v.key = some k → awaits v.key w.past = false ∧
    ∃ bytes, w.state.storage.symbolFiles v.key = some bytes ∧
      host.symbols.sha256 bytes = host.symbols.sha256 v.bytes

/-- What was decided about the PDB. -/
structure PlanFits (v : Verified) (plan : Plan) (w : StoreWorld T) : Prop where
  unchanged : plan = .unchanged → R.Settled k v w
  restore : plan = .restore → w.state.db.findSymbol v.key = some k

/-- A push that has verified the PDBs `vs` is about to carry out `plans`, and has
made the claims `claimed`. The claims of `doubt` may await their bytes, and the
keys of `exempt` are still being worked on. -/
structure Ready (vs : List Verified) (plans : List (Verified × Plan))
    (claimed doubt exempt : List SymbolKey) (w : StoreWorld T) : Prop where
  rows : R.Rows k doubt w
  fresh : ∀ s ∈ claimed, R.Fresh k s w
  nodup : claimed.Nodup
  settled : ∀ v ∈ vs, v.key ∉ exempt → (∀ plan, (v, plan) ∈ plans → plan = .unchanged) →
    R.Settled k v w
  restored : ∀ v, (v, .restore) ∈ plans → w.state.db.findSymbol v.key = some k
  verified : ∀ v ∈ vs, VerifiedFor host.symbols R.start k v.key v.bytes w.past

/-- The claims of a push that it may undo. -/
structure Undoing (claimed : List SymbolKey) (w : StoreWorld T) : Prop where
  rows : R.Rows k claimed w
  fresh : ∀ s ∈ claimed, R.Fresh k s w
  nodup : claimed.Nodup

variable {R k} {vs : List Verified} {plans : List (Verified × Plan)}
variable {claimed doubt exempt : List SymbolKey} {w w' : StoreWorld T}

theorem Fresh.of_same {s : SymbolKey} (h : R.Fresh k s w)
    (howner : w'.state.db.findSymbol s = w.state.db.findSymbol s)
    (hstanding : ∀ bytes, Standing R.tasks k s bytes w'.past → Standing R.tasks k s bytes w.past) :
    R.Fresh k s w' :=
  ⟨howner.trans h.1, fun howned bytes hs => h.2 howned bytes (hstanding bytes hs)⟩

theorem Settled.of_same {v : Verified} (h : R.Settled k v w)
    (howner : w'.state.db.findSymbol v.key = w.state.db.findSymbol v.key)
    (hfile : w'.state.storage.symbolFiles v.key = w.state.storage.symbolFiles v.key)
    (hawaits : awaits v.key w'.past = awaits v.key w.past) : R.Settled k v w' := by
  intro howned hs
  rw [hfile, hawaits]
  exact h howned (howner.symm.trans hs)

theorem kept_fresh (s : SymbolKey) : R.Kept k (R.Fresh k s) := fun _ _ hu h =>
  ⟨(hu.owner s).mpr h.1, fun howned bytes hstanding =>
    h.2 howned bytes ((hu.standing s bytes).mp hstanding)⟩

theorem kept_settled (v : Verified) : R.Kept k (R.Settled k v) := by
  intro w w' hu h howned hs
  have hs' := (hu.owner v.key).mp hs
  obtain ⟨hstored, bytes, hbytes, hsha⟩ := h howned hs'
  exact ⟨(hu.awaits v.key hs').trans hstored, bytes,
    (hu.file (Or.inr howned) v.key hs' hstored).trans hbytes, hsha⟩

theorem kept_planFits (v : Verified) (plan : Plan) : R.Kept k (R.PlanFits k v plan) :=
  fun w w' hu h => ⟨fun hplan => kept_settled v w w' hu (h.unchanged hplan),
    fun hplan => (hu.owner v.key).mpr (h.restore hplan)⟩

theorem kept_ready : R.Kept k (R.Ready k vs plans claimed doubt exempt) := fun w w' hu h =>
  ⟨kept_rows w w' hu h.rows, fun s hs => kept_fresh s w w' hu (h.fresh s hs), h.nodup,
    fun v hv hexempt hplans => kept_settled v w w' hu (h.settled v hv hexempt hplans),
    fun v hv => (hu.owner v.key).mpr (h.restored v hv),
    fun v hv => (h.verified v hv).mono hu.past⟩

theorem kept_undoing : R.Kept k (R.Undoing k claimed) := fun w w' hu h =>
  ⟨kept_rows w w' hu h.rows, fun s hs => kept_fresh s w w' hu (h.fresh s hs), h.nodup⟩

theorem Ready.undoing (h : R.Ready k vs plans claimed doubt exempt w)
    (hdoubt : ∀ s ∈ doubt, s ∈ claimed) : R.Undoing k claimed w :=
  ⟨h.rows.mono hdoubt, h.fresh, h.nodup⟩

theorem upheld_of_same {s : SymbolKey} (hupheld : R.Upheld k w)
    (hstanding : ∀ s' bytes, Standing R.tasks k s' bytes w'.past → Standing R.tasks k s' bytes w.past)
    (hfresh : R.owned → ∀ bytes, ¬ Standing R.tasks k s bytes w.past)
    (hsame : ∀ s', s' ≠ s → w'.state.db.findSymbol s' = w.state.db.findSymbol s' ∧
      w'.state.storage.symbolFiles s' = w.state.storage.symbolFiles s' ∧
      awaits s' w'.past = awaits s' w.past) : R.Upheld k w' := by
  intro howned s' bytes hs'
  have hbefore := hstanding s' bytes hs'
  have hne : s' ≠ s := by
    rintro rfl
    exact hfresh howned bytes hbefore
  obtain ⟨howner, hfile, hawaits⟩ := hsame s' hne
  have stands := hupheld howned s' bytes hbefore
  exact ⟨howner.trans stands.owner, hfile.trans stands.file, hawaits.trans stands.awaits⟩

section Release

variable [DecidableEq T] {t : T}

variable (R k) in
/-- A claim has been undone, or could not be. -/
structure Undone (s : SymbolKey) (rest : List SymbolKey) (w : StoreWorld T) : Prop where
  rows : R.Rows k rest w
  fallen : R.owned → ∀ bytes, ¬ Standing R.tasks k s bytes w.past
  fresh : ∀ s ∈ rest, R.Fresh k s w
  nodup : (s :: rest).Nodup

omit [DecidableEq T] in
theorem kept_undone (s : SymbolKey) (rest : List SymbolKey) : R.Kept k (R.Undone k s rest) :=
  fun w w' hu h => ⟨kept_rows w w' hu h.rows,
    fun howned bytes hs => h.fallen howned bytes ((hu.standing s bytes).mp hs),
    fun s' hs' => kept_fresh s' w w' hu (h.fresh s' hs'), h.nodup⟩

theorem symbols_undoRow (hversion : (R.tasks t).symbolVersion = some k) (s : SymbolKey)
    (rest : List SymbolKey) :
    R.Symbols t (Holding t k (R.Undoing k (s :: rest))) (query (.deleteSymbol s))
      (fun _ => Holding t k (R.Undone k s rest)) (Holding t k (R.Undone k s rest)) := by
  refine symbols_call rfl (by simp) kept_undoing fun w hw hinv o r w' hp ha => ?_
  obtain ⟨hheld, hrows, hfresh, hnodup⟩ := hw
  have hs := hfresh s List.mem_cons_self
  have hfile (s' : SymbolKey) :
      w'.state.storage.symbolFiles s' = w.state.storage.symbolFiles s' := by
    simpa using symbolFile_of_perform hp s'
  have howner (s' : SymbolKey) (hne : s' ≠ s) :
      w'.state.db.findSymbol s' = w.state.db.findSymbol s' := by
    simpa [hne.symm] using owner_of_perform hp s'
  have hawaits (s' : SymbolKey) (hne : s' ≠ s) : awaits s' w'.past = awaits s' w.past := by
    simpa [hne.symm] using awaits_of_perform hp s'
  have hstanding (s' : SymbolKey) (bytes : Content) :
      Standing R.tasks k s' bytes w'.past ↔ Standing R.tasks k s' bytes w.past := by
    simp [((server T).perform_eq_some.mp hp).2, Standing, Replaces, Call.purgesSymbols]
  have undone : R.Undone k s rest w' := by
    refine ⟨fun s' hs' => ?_, fun howned bytes h => hs.2 howned bytes ((hstanding s bytes).mp h),
      fun s' hs' => ?_, hnodup⟩
    · by_cases hne : s' = s
      · subst hne
        have hundone : awaits s' w'.past = false := by
          simp [((server T).perform_eq_some.mp hp).2, awaits, seesClaim]
        have hexec := ((server T).perform_eq_some.mp hp).1
        cases o with
        | false =>
          obtain ⟨-, hstate⟩ : .ok () = r ∧
              { w.state with db := w.state.db.deleteSymbol s' } = w'.state := by
            simpa [server, Store.exec, DbCall.run] using hexec
          rw [← hstate] at hs'
          exact (((w.state.db.findSymbol_deleteSymbol k s').mp hs').2 rfl).elim
        | true =>
          refine ⟨Or.inl hundone, fun _ hwhole => ?_⟩
          have hstored : awaits s' w.past = false := by
            simpa [leavesBytes, hversion] using ha.2.1 hwhole
          exact ((hrows s' hs.1).2 hstored hwhole).of_same (past_of_perform hp) (hfile s')
      · rw [howner s' hne] at hs'
        obtain ⟨hstored, hsound⟩ := hrows s' hs'
        rw [hawaits s' hne]
        refine ⟨hstored.imp_right fun h => (List.mem_cons.mp h).resolve_left hne, fun h hwhole => ?_⟩
        exact (hsound h hwhole).of_same (past_of_perform hp) (hfile s')
    · have hne : s' ≠ s := by
        rintro rfl
        exact (List.nodup_cons.mp hnodup).1 hs'
      exact (hfresh s' (List.mem_cons_of_mem s hs')).of_same (howner s' hne) fun bytes =>
        (hstanding s' bytes).mp
  refine ⟨fun k' hk' => Option.some.inj (hk'.symm.trans hs.1), ?_, ?_⟩
  · exact upheld_of_same (hinv.2 k) (fun s' bytes => (hstanding s' bytes).mp) hs.2
      fun s' hne => ⟨howner s' hne, hfile s', hawaits s' hne⟩
  · cases r with
    | ok _ => exact undone
    | error _ => exact undone

theorem symbols_undoFile (hversion : (R.tasks t).symbolVersion = some k) (s : SymbolKey)
    (rest : List SymbolKey) :
    R.Symbols t (Holding t k (R.Undone k s rest)) (file (.deleteSymbol s))
      (fun _ => Holding t k (R.Undoing k rest)) (Holding t k (R.Undoing k rest)) := by
  refine symbols_call rfl (by simp) (kept_undone s rest) fun w hw hinv o r w' hp ha => ?_
  obtain ⟨hheld, hrows, hfallen, hfresh, hnodup⟩ := hw
  have hrest := List.nodup_cons.mp hnodup
  have howner (s' : SymbolKey) : w'.state.db.findSymbol s' = w.state.db.findSymbol s' := by
    simpa using owner_of_perform hp s'
  have hawaits (s' : SymbolKey) : awaits s' w'.past = awaits s' w.past := by
    simpa using awaits_of_perform hp s'
  have hfile (s' : SymbolKey) (hne : s' ≠ s) :
      w'.state.storage.symbolFiles s' = w.state.storage.symbolFiles s' := by
    simpa [hne.symm] using symbolFile_of_perform hp s'
  have hstanding (s' : SymbolKey) (bytes : Content) :
      Standing R.tasks k s' bytes w'.past ↔ Standing R.tasks k s' bytes w.past := by
    simp [((server T).perform_eq_some.mp hp).2, Standing, Replaces, Call.purgesSymbols]
  have undoing : R.Undoing k rest w' := by
    refine ⟨hrows.of_same (past_of_perform hp) fun s' hs' =>
      ⟨(howner s').symm.trans hs', hawaits s', fun hwhole hstored => ?_⟩, fun s' hs' => ?_, hrest.2⟩
    · by_cases hne : s' = s
      · subst hne
        rw [howner s'] at hs'
        rcases symbolFile_of_perform hp s' with heq | ⟨-, rfl, -⟩ | ⟨_, hc, -⟩
        · exact heq
        · have hleaves := ha.2.1 hwhole
          simp [leavesBytes, hversion, hs', hstored] at hleaves
        · cases hc
      · exact hfile s' hne
    · exact (hfresh s' hs').of_same (howner s') fun bytes => (hstanding s' bytes).mp
  refine ⟨?_, ?_, ?_⟩
  · rintro hsafe rfl k' hk'
    rcases hsafe with hwhole | howned
    · have hleaves := ha.2.1 hwhole
      simp only [leavesBytes, hversion, hk'] at hleaves
      exact Or.inr (by simpa using hleaves)
    · have hspares := (ha.2.2 howned).1
      simp only [sparesOthers, hversion, hk'] at hspares
      have hspares : awaits s w.past = true ∨ k' = k := by simpa using hspares
      exact hspares.symm
  · exact upheld_of_same (hinv.2 k) (fun s' bytes => (hstanding s' bytes).mp) hfallen
      fun s' hne => ⟨howner s', hfile s' hne, hawaits s'⟩
  · cases r with
    | ok _ => exact undoing
    | error _ => exact undoing

theorem symbols_release (hversion : (R.tasks t).symbolVersion = some k) :
    R.Symbols t (Holding t k (R.Undoing k claimed)) (release claimed)
      (fun _ => Holding t k (R.Rows k [])) (Holding t k (R.Rows k [])) := by
  induction claimed with
  | nil => exact Triple.pure fun _ h => ⟨h.1, h.2.rows⟩
  | cons s rest ih =>
    refine Triple.bind ?_ fun _ => ih
    exact Triple.bind (symbols_undoRow hversion s rest).ignore fun _ =>
      (symbols_undoFile hversion s rest).ignore

theorem symbols_giveUp (hversion : (R.tasks t).symbolVersion = some k) {α : Type} (e : Error)
    (B : α → StoreWorld T → Prop) :
    R.Symbols t (Holding t k (R.Undoing k claimed)) (giveUp claimed e) B
      (Holding t k (R.Rows k [])) :=
  Triple.bind (symbols_release hversion) fun _ => Triple.throw fun _ h => h

end Release

section Store

variable [DecidableEq T] {t : T}

/-- A key is claimed where there is no claim. -/
theorem symbols_claim {v : Verified} :
    R.Symbols t (Holding t k (R.Ready k vs ((v, .claim) :: plans) claimed [] []))
      (query (.addSymbol v.key k))
      (fun added => Holding t k fun w =>
        if added then R.Ready k vs plans (claimed ++ [v.key]) [v.key] [v.key] w
        else R.Undoing k claimed w)
      (Holding t k (R.Undoing k claimed)) := by
  refine symbols_call rfl (by simp) kept_ready fun w hw hinv o r w' hp _ => ?_
  obtain ⟨hheld, hready⟩ := hw
  have hfile (s : SymbolKey) : w'.state.storage.symbolFiles s = w.state.storage.symbolFiles s := by
    simpa using symbolFile_of_perform hp s
  have howner (s : SymbolKey) (hne : s ≠ v.key) :
      w'.state.db.findSymbol s = w.state.db.findSymbol s := by
    simpa [hne.symm] using owner_of_perform hp s
  have hawaits (s : SymbolKey) (hne : s ≠ v.key) : awaits s w'.past = awaits s w.past := by
    simpa [hne.symm] using awaits_of_perform hp s
  have hstanding (s : SymbolKey) (bytes : Content) :
      Standing R.tasks k s bytes w'.past ↔ Standing R.tasks k s bytes w.past := by
    simp [((server T).perform_eq_some.mp hp).2, Standing, Replaces, Call.purgesSymbols]
  rcases addSymbol_of_perform hp with ⟨rfl, hnone, hclaimed, hawaiting⟩ | ⟨hr, hstate, hall⟩
  · have hfallen : R.owned → ∀ bytes, ¬ Standing R.tasks k v.key bytes w.past := by
      intro howned bytes h
      simpa [hnone] using (hinv.2 k howned v.key bytes h).owner
    refine ⟨rfl, upheld_of_same (hinv.2 k) (fun s' bytes => (hstanding s' bytes).mp) hfallen
      fun s' hne => ⟨howner s' hne, hfile s', hawaits s' hne⟩, ?_⟩
    have hother {s : SymbolKey} (hs : R.Fresh k s w) : s ≠ v.key := by
      rintro rfl
      simpa [hnone] using hs.1
    have hkept {s : SymbolKey} (hs : R.Fresh k s w) : R.Fresh k s w' :=
      hs.of_same (howner s (hother hs)) fun bytes => (hstanding s bytes).mp
    refine ⟨fun s hs => ?_, fun s hs => ?_, ?_, fun v' hv' hexempt hplans => ?_, fun v' hv' => ?_,
      fun v' hv' => (hready.verified v' hv').mono (past_of_perform hp)⟩
    · by_cases hne : s = v.key
      · subst hne
        exact ⟨Or.inr List.mem_cons_self, by simp [hawaiting]⟩
      · rw [howner s hne] at hs
        obtain ⟨hstored, hsound⟩ := hready.rows s hs
        rw [hawaits s hne]
        exact ⟨hstored.imp_right (by simp), fun h hwhole =>
          (hsound h hwhole).of_same (past_of_perform hp) (hfile s)⟩
    · rcases List.mem_append.mp hs with hs | hs
      · exact hkept (hready.fresh s hs)
      · rw [List.mem_singleton.mp hs]
        exact ⟨hclaimed, fun howned bytes h =>
          hfallen howned bytes ((hstanding v.key bytes).mp h)⟩
    · refine hready.nodup.append (List.nodup_singleton _) fun s hs hs' => ?_
      exact hother (hready.fresh s hs) (List.mem_singleton.mp hs')
    · have hne : v'.key ≠ v.key := fun h => hexempt (h ▸ List.mem_cons_self)
      refine (hready.settled v' hv' (by simp) fun plan hplan => ?_).of_same (howner _ hne) (hfile _)
        (hawaits _ hne)
      rcases List.mem_cons.mp hplan with heq | hplan
      · exact (hne (congrArg Verified.key (Prod.mk.inj heq).1)).elim
      · exact hplans plan hplan
    · have hs := hready.restored v' (List.mem_cons_of_mem _ hv')
      have hne : v'.key ≠ v.key := fun heq => by simp [heq, hnone] at hs
      exact (howner v'.key hne).trans hs
  · have unmoved : Unmoved R.tasks R.safe k w w' := by
      refine ⟨fun s => by rw [hstate], fun s _ => hall s, fun _ s _ _ => hfile s, hstanding,
        past_of_perform hp⟩
    have undoing := (kept_ready w w' unmoved hready).undoing (by simp)
    refine ⟨rfl, fun howned s' bytes h => ?_, ?_⟩
    · exact (hinv.2 k howned s' bytes ((hstanding s' bytes).mp h)).of_unmoved unmoved (Or.inr howned)
    · rcases r with e | added
      · exact undoing
      · cases added with
        | false => exact undoing
        | true => exact (hr rfl).elim

/-- The bytes of a PDB are stored under a claim of the version. -/
theorem symbols_store (hversion : (R.tasks t).symbolVersion = some k)
    (hkeys : (vs.map Verified.key).Nodup) {v : Verified} (hv : v ∈ vs)
    (hdoubt : ∀ s ∈ doubt, s = v.key) :
    R.Symbols t (Holding t k fun w => R.Ready k vs plans claimed doubt [v.key] w ∧
        w.state.db.findSymbol v.key = some k)
      (file (.storeSymbolFile v.key v.bytes))
      (fun _ => Holding t k (R.Ready k vs plans claimed [] []))
      (Holding t k (R.Ready k vs plans claimed doubt [v.key])) := by
  have kept : R.Kept k fun w => R.Ready k vs plans claimed doubt [v.key] w ∧
      w.state.db.findSymbol v.key = some k :=
    kept_ready.and fun w w' hu h => (hu.owner v.key).mpr h
  refine symbols_call rfl (by simp) kept fun w hw hinv o r w' hp _ => ?_
  obtain ⟨hheld, hready, hclaimed⟩ := hw
  have howner (s : SymbolKey) : w'.state.db.findSymbol s = w.state.db.findSymbol s := by
    simpa using owner_of_perform hp s
  have hfile (s : SymbolKey) (hne : s ≠ v.key) :
      w'.state.storage.symbolFiles s = w.state.storage.symbolFiles s := by
    simpa [hne.symm] using symbolFile_of_perform hp s
  have hawaits (s : SymbolKey) (hne : s ≠ v.key) : awaits s w'.past = awaits s w.past := by
    simpa [hne.symm] using awaits_of_perform hp s
  have hstanding (s : SymbolKey) (bytes : Content) (h : Standing R.tasks k s bytes w'.past) :
      ¬ Replaces R.tasks k s bytes ⟨t, .storage (.storeSymbolFile v.key v.bytes), o, r⟩ ∧
        Standing R.tasks k s bytes w.past := by
    rw [((server T).perform_eq_some.mp hp).2, Standing] at h
    rcases h with ⟨verified, hc, -⟩ | ⟨-, h⟩
    · cases hc
    · exact h
  refine ⟨⟨hversion, hclaimed⟩, fun howned s bytes h => ?_, ?_⟩
  · obtain ⟨hsame, hbefore⟩ := hstanding s bytes h
    have stands := hinv.2 k howned s bytes hbefore
    refine ⟨(howner s).trans stands.owner, ?_, ?_⟩
    · rcases symbolFile_of_perform hp s with heq | ⟨hc, -⟩ | ⟨other, hc, rfl, hother⟩
      · exact heq.trans stands.file
      · cases hc
      · -- the version's own push would have ended what stands
        rw [hother]
        by_contra hne
        exact hsame ⟨hversion, rfl, other, fun heq => hne (congrArg some heq), hc⟩
    · rcases awaits_of_perform hp s with heq | ⟨_, hc, -⟩ | ⟨hc, -⟩ | ⟨_, -, -, hstored⟩
      · exact heq.trans stands.awaits
      · cases hc
      · cases hc
      · exact hstored
  · have hexec := ((server T).perform_eq_some.mp hp).1
    cases o with
    | true =>
      obtain ⟨rfl, hstate⟩ : .error .io = r ∧ w.state = w'.state := by
        simpa [server, Store.exec, StorageCall.failed] using hexec
      have hunmoved (s : SymbolKey) (bytes : Content) :
          Standing R.tasks k s bytes w'.past ↔ Standing R.tasks k s bytes w.past := by
        simp [((server T).perform_eq_some.mp hp).2, Standing, Replaces, Call.purgesSymbols]
      refine kept_ready w w' ⟨fun s => by rw [howner s], fun s _ => ?_, fun _ s _ _ => ?_, hunmoved,
        past_of_perform hp⟩ hready
      · simp [((server T).perform_eq_some.mp hp).2, awaits, seesClaim]
      · rw [hstate]
    | false =>
      obtain ⟨rfl, hstate⟩ : .ok () = r ∧ { w.state with storage := { w.state.storage with
          symbolFiles := Function.update w.state.storage.symbolFiles v.key (some v.bytes) } } =
          w'.state := by
        simpa [server, Store.exec, StorageCall.run] using hexec
      have hstored : awaits v.key w'.past = false := by
        simp [((server T).perform_eq_some.mp hp).2, awaits, seesClaim]
      have hbytes : w'.state.storage.symbolFiles v.key = some v.bytes := by
        rw [← hstate]
        exact Function.update_self ..
      have hkept {s : SymbolKey} (hs : R.Fresh k s w) : R.Fresh k s w' :=
        hs.of_same (howner s) fun bytes h => (hstanding s bytes h).2
      refine ⟨fun s hs => ?_, fun s hs => hkept (hready.fresh s hs), hready.nodup,
        fun v' hv' _ hplans => ?_, fun v' hv' => (howner v'.key).trans (hready.restored v' hv'),
        fun v' hv' => (hready.verified v' hv').mono (past_of_perform hp)⟩
      · by_cases hne : s = v.key
        · subst hne
          exact ⟨Or.inl hstored, fun _ _ => ⟨v.bytes, hbytes,
            (hready.verified v hv).mono (past_of_perform hp)⟩⟩
        · rw [howner s] at hs
          obtain ⟨hbefore, hsound⟩ := hready.rows s hs
          rw [hawaits s hne]
          exact ⟨hbefore.imp_right fun h => (hne (hdoubt s h)).elim, fun h hwhole =>
            (hsound h hwhole).of_same (past_of_perform hp) (hfile s hne)⟩
      · by_cases hne : v'.key = v.key
        · obtain rfl : v' = v := List.inj_on_of_nodup_map hkeys hv' hv hne
          exact fun _ _ => ⟨hstored, v'.bytes, hbytes, rfl⟩
        · exact (hready.settled v' hv' (by simpa using hne) hplans).of_same (howner _)
            (hfile _ hne) (hawaits _ hne)

omit [DecidableEq T] in
theorem Ready.next {v : Verified} {plan : Plan}
    (h : R.Ready k vs ((v, plan) :: plans) claimed [] [] w)
    (hexempt : plan ≠ .unchanged → v.key ∈ exempt) : R.Ready k vs plans claimed [] exempt w := by
  refine ⟨h.rows, h.fresh, h.nodup, fun v' hv' hnot hplans => ?_, fun v' hv' =>
    h.restored v' (List.mem_cons_of_mem _ hv'), h.verified⟩
  refine h.settled v' hv' (by simp) fun plan' hplan' => ?_
  rcases List.mem_cons.mp hplan' with heq | hplan'
  · obtain ⟨rfl, rfl⟩ := Prod.mk.inj heq
    by_contra hplan
    exact hnot (hexempt hplan)
  · exact hplans plan' hplan'

/-- The bytes of a PDB are stored, or the push undoes its claims. -/
theorem symbols_storeOr (hversion : (R.tasks t).symbolVersion = some k)
    (hkeys : (vs.map Verified.key).Nodup) {v : Verified} (hv : v ∈ vs)
    (hdoubt : ∀ s ∈ doubt, s = v.key) (hundo : ∀ s ∈ doubt, s ∈ claimed)
    {rest : Op (List SymbolKey)} {B : List SymbolKey → StoreWorld T → Prop}
    (hrest : R.Symbols t (Holding t k (R.Ready k vs plans claimed [] [])) rest B
      (Holding t k (R.Rows k []))) :
    R.Symbols t (Holding t k fun w => R.Ready k vs plans claimed doubt [v.key] w ∧
        w.state.db.findSymbol v.key = some k)
      (do
        match ← Fallible.attempt (file (.storeSymbolFile v.key v.bytes)) with
        | .error e => giveUp claimed e
        | .ok () => rest) B (Holding t k (R.Rows k [])) := by
  refine Triple.bind (symbols_store hversion hkeys hv hdoubt).attempt fun stored => ?_
  cases stored with
  | error e => exact (symbols_giveUp hversion e _).pre fun w h => ⟨h.1, h.2.undoing hundo⟩
  | ok _ => exact hrest

theorem symbols_carryOut (hversion : (R.tasks t).symbolVersion = some k)
    (hkeys : (vs.map Verified.key).Nodup) (hplans : ∀ e ∈ plans, e.1 ∈ vs) :
    R.Symbols t (Holding t k (R.Ready k vs plans claimed [] [])) (carryOut k plans claimed)
      (fun claimed => Holding t k (R.Ready k vs [] claimed [] [])) (Holding t k (R.Rows k [])) := by
  induction plans generalizing claimed with
  | nil => exact Triple.pure fun _ h => h
  | cons e plans ih =>
    obtain ⟨v, plan⟩ := e
    have hv : v ∈ vs := hplans _ List.mem_cons_self
    have rest (claimed : List SymbolKey) : R.Symbols t
        (Holding t k (R.Ready k vs plans claimed [] [])) (carryOut k plans claimed)
        (fun claimed => Holding t k (R.Ready k vs [] claimed [] [])) (Holding t k (R.Rows k [])) :=
      ih fun e he => hplans e (List.mem_cons_of_mem _ he)
    cases plan with
    | unchanged => exact (rest claimed).pre fun w h => ⟨h.1, h.2.next fun h => (h rfl).elim⟩
    | restore =>
      refine (symbols_storeOr hversion hkeys hv (by simp) (by simp) (rest claimed)).pre
        fun w h => ⟨h.1, h.2.next fun _ => ?_, ?_⟩
      · exact List.mem_cons_self
      · exact h.2.restored v List.mem_cons_self
    | claim =>
      refine Triple.bind symbols_claim.attempt fun added => ?_
      rcases added with e | added
      · exact symbols_giveUp hversion e _
      · cases added with
        | false => exact symbols_giveUp hversion _ _
        | true =>
          have hdoubt : ∀ s ∈ [v.key], s = v.key := fun s hs => List.mem_singleton.mp hs
          refine (symbols_storeOr hversion hkeys hv hdoubt (by simp)
            (rest (claimed ++ [v.key]))).pre fun w h => ⟨h.1, h.2, (h.2.fresh v.key ?_).1⟩
          exact List.mem_append_right _ List.mem_cons_self

end Store

section Plans

variable [DecidableEq T] {t : T} {B : StoreWorld T → Prop} {α : Type} {x : Op α}

/-- A call about other things, and what its answer says. -/
theorem symbols_look {c : Call} {next : c.Answer → Except Error α} {Q : α → StoreWorld T → Prop}
    (hx : x.run = .call c fun r => .done (next r)) (hc : c.minor) (hB : R.Kept k B)
    (hQ : ∀ w, B w → R.protocol.inv w → ∀ o r w' a, (server T).perform t c o w = some (r, w') →
      next r = .ok a → Q a w') :
    R.Symbols t (Holding t k B) x (fun a => Holding t k fun w => B w ∧ Q a w) (Holding t k B) := by
  intro w hw
  rw [hx]
  refine Protocol.Safe.call (stable_holding hB) hw fun w hw hinv o r w' hp _ => ?_
  obtain ⟨hinv', hguar⟩ := step_of_minor hp hc hinv
  have hheld : w'.state.versionLock k = some t := by
    rw [versionLock_of_minor hp hc]
    exact hw.1
  have hkept := hB w w' (unmoved_of_aside hp (Call.aside_of_minor hc) k) hw.2
  refine ⟨hinv', hguar, ?_⟩
  cases hnext : next r with
  | ok a => exact ⟨hheld, hkept, hQ w hw.2 hinv o r w' a hp hnext⟩
  | error e => exact ⟨hheld, hkept⟩

/-- Which bytes are there: of the version's own claim only. -/
theorem symbols_storedSha256 (v : Verified) (hB : R.Kept k B) (hrows : ∀ w, B w → R.Rows k [] w) :
    R.Symbols t (Holding t k B) (storedSha256 host.symbols v.key)
      (fun stored => Holding t k fun w => B w ∧
        (stored = some (host.symbols.sha256 v.bytes) → R.Settled k v w))
      (Holding t k B) := by
  have looked : R.Symbols t (Holding t k B) (file (.getSymbol v.key)) (fun _ => Holding t k B)
      (Holding t k B) := symbols_minor hB (calls_file trivial)
  refine Triple.bind looked.attempt fun found => ?_
  rcases found with e | ⟨⟩
  · cases e with
    | packageNotFound => exact Triple.pure fun _ h => ⟨h.1, h.2, by simp⟩
    | _ => exact Triple.throw fun _ h => h
  · have opened : R.Symbols t (Holding t k B) (file (.openSymbol v.key))
        (fun bytes => Holding t k fun w => B w ∧
          (host.symbols.sha256 bytes = host.symbols.sha256 v.bytes → R.Settled k v w))
        (Holding t k B) := by
      refine symbols_look rfl trivial hB fun w hw hinv o r w' bytes hp hr hsha => ?_
      obtain rfl : r = .ok bytes := hr
      have hbytes : w.state.storage.symbolFiles v.key = some bytes :=
        openFile_eq_ok.mp (perform_file_ok (by simp [StorageCall.failed]) hp)
      refine kept_settled v w w' (unmoved_of_aside hp trivial k) fun _ hs => ?_
      exact ⟨(hrows w hw v.key hs).1.resolve_right List.not_mem_nil, bytes, hbytes, hsha⟩
    refine Triple.bind opened fun bytes => Triple.pure fun w h => ?_
    exact ⟨h.1, h.2.1, fun hstored => h.2.2 (Option.some.inj hstored)⟩

theorem symbols_refuseIf {p : Prop} [Decidable p] {e : Error} {A : StoreWorld T → Prop} :
    R.Symbols t A (refuseIf p e) (fun _ w => ¬ p ∧ A w) A := by
  unfold refuseIf onlyIf
  split_ifs with hp
  · exact Triple.throw fun _ h => h
  · exact Triple.pure fun _ h => ⟨hp, h⟩

theorem symbols_planOf (v : Verified) (hB : R.Kept k B) (hrows : ∀ w, B w → R.Rows k [] w) :
    R.Symbols t (Holding t k B) (planOf host.symbols k v)
      (fun plan => Holding t k fun w => B w ∧ R.PlanFits k v plan w) (Holding t k B) := by
  have found : R.Symbols t (Holding t k B) (query (.findSymbol v.key))
      (fun owner => Holding t k fun w => B w ∧
        (owner = some k → w.state.db.findSymbol v.key = some k)) (Holding t k B) := by
    refine symbols_look rfl trivial hB fun w hw hinv o r w' owner hp hr hk => ?_
    obtain rfl : r = .ok owner := hr
    have howner : w.state.db.findSymbol v.key = owner := Except.ok.inj (perform_query_ok hp)
    exact ((unmoved_of_aside (R := R) hp trivial k).owner v.key).mpr (howner.trans hk)
  refine Triple.bind found fun owner => ?_
  cases owner with
  | none => exact Triple.pure fun w h => ⟨h.1, h.2.1, (by simp), by simp⟩
  | some owner =>
    let B' (w : StoreWorld T) : Prop :=
      B w ∧ (some owner = some k → w.state.db.findSymbol v.key = some k)
    have hB' : R.Kept k B' := hB.and fun w w' hu h hk => (hu.owner v.key).mpr (h hk)
    refine Triple.bind (symbols_refuseIf.mono (fun _ h => h) (fun _ _ h => h)
      fun w h => ⟨h.1, h.2.1⟩) fun _ => ?_
    refine Triple.of_fact fun hid => ?_
    have stored := symbols_storedSha256 (t := t) v hB' fun w h => hrows w h.1
    refine Triple.bind (stored.mono (fun _ h => h) (fun _ _ h => h) fun w h => ⟨h.1, h.2.1⟩)
      fun stored => ?_
    cases stored with
    | some stored =>
      dsimp only
      split_ifs with hsha
      · exact Triple.pure fun w h => ⟨h.1, h.2.1.1, fun _ => h.2.2 (congrArg some hsha), by simp⟩
      · exact Triple.throw fun w h => ⟨h.1, h.2.1.1⟩
    | none =>
      dsimp only
      split_ifs with hnormalized
      · have hk : owner = k := by
          have hlower : owner.lowerId = k.lowerId := not_not.mp hid
          rw [show owner = ⟨owner.lowerId, owner.normalized⟩ from rfl, hlower, hnormalized]
        exact Triple.pure fun w h =>
          ⟨h.1, h.2.1.1, (by simp), fun _ => h.2.1.2 (congrArg some hk)⟩
      · exact Triple.throw fun w h => ⟨h.1, h.2.1.1⟩

theorem symbols_planAll (vs : List Verified) (hB : R.Kept k B)
    (hrows : ∀ w, B w → R.Rows k [] w) :
    R.Symbols t (Holding t k B) (planAll host.symbols k vs)
      (fun plans => Holding t k fun w => (B w ∧ ∀ e ∈ plans, R.PlanFits k e.1 e.2 w) ∧
        plans.map Prod.fst = vs) (Holding t k B) := by
  induction vs generalizing B with
  | nil => exact Triple.pure fun w h => ⟨h.1, ⟨h.2, by simp⟩, rfl⟩
  | cons v vs ih =>
    refine Triple.bind (symbols_planOf v hB hrows) fun plan => ?_
    have rest := ih (hB.and (kept_planFits v plan)) fun w h => hrows w h.1
    refine Triple.bind (rest.mono (fun _ h => h) (fun _ _ h => h) fun w h => ⟨h.1, h.2.1⟩)
      fun plans => Triple.pure fun w h => ⟨h.1, ⟨h.2.1.1.1, fun e he => ?_⟩, ?_⟩
    · rcases List.mem_cons.mp he with rfl | he
      · exact h.2.1.1.2
      · exact h.2.1.2 e he
    · simp [h.2.2]

end Plans

section Push

variable [DecidableEq T] {t : T} {B : StoreWorld T → Prop} {α : Type} {x : Op α}

theorem symbols_aside {c : Call} {E : StoreWorld T → Prop} (hc : c.minor) (hB : R.Kept k B) :
    R.Symbols t (Holding t k B) (call c) (fun _ => Holding t k B) E := by
  intro w hw
  refine Protocol.Safe.call (stable_holding hB) hw fun w hw hinv o r w' hp _ => ?_
  obtain ⟨hinv', hguar⟩ := step_of_minor hp hc hinv
  refine ⟨hinv', hguar, ?_, hB w w' (unmoved_of_aside hp (Call.aside_of_minor hc) k) hw.2⟩
  rw [versionLock_of_minor hp hc]
  exact hw.1

theorem symbols_withSymbolLocks {ss : List SymbolKey} {D : α → StoreWorld T → Prop}
    {E : StoreWorld T → Prop} (hB : R.Kept k B) (hD : ∀ a, R.Kept k (D a)) (hE : R.Kept k E)
    (h : R.Symbols t (Holding t k B) x (fun a => Holding t k (D a)) (Holding t k E)) :
    R.Symbols t (Holding t k B) (withSymbolLocks ss x) (fun a => Holding t k (D a))
      (Holding t k E) := by
  induction ss with
  | nil => exact h
  | cons s ss ih =>
    refine Triple.bind (symbols_aside trivial hB) fun _ => Triple.bind ih.attempt fun result => ?_
    cases result with
    | ok a => exact Triple.bind (symbols_aside trivial (hD a)) fun _ => Triple.pure fun _ h => h
    | error e => exact Triple.bind (symbols_aside trivial hE) fun _ => Triple.throw fun _ h => h

variable (R k) in
/-- What the push has verified against the stored package. -/
structure Verifying (vs : List Verified) (w : StoreWorld T) : Prop where
  rows : R.Rows k [] w
  verified : ∀ v ∈ vs, VerifiedFor host.symbols R.start k v.key v.bytes w.past

omit [DecidableEq T] in
theorem kept_verifying (vs : List Verified) : R.Kept k (R.Verifying k vs) := fun w w' hu h =>
  ⟨kept_rows w w' hu h.rows, fun v hv => (h.verified v hv).mono hu.past⟩

theorem symbols_storeAll (hversion : (R.tasks t).symbolVersion = some k)
    (hkeys : (vs.map Verified.key).Nodup) :
    R.Symbols t (Holding t k (R.Verifying k vs)) (storeAll host.symbols k vs)
      (fun claimed => Holding t k (R.Ready k vs [] claimed [] []))
      (Holding t k (R.Rows k [])) := by
  refine symbols_withSymbolLocks (kept_verifying vs) (fun _ => kept_ready) kept_rows ?_
  refine Triple.bind ((symbols_planAll vs (kept_verifying vs) fun _ h => h.rows).mono
    (fun _ h => h) (fun _ _ h => h) fun w h => ⟨h.1, h.2.rows⟩) fun plans => ?_
  rintro w ⟨hheld, ⟨hverifying, hfits⟩, hplans⟩
  refine symbols_carryOut hversion hkeys (fun e he => hplans ▸ List.mem_map_of_mem he) w
    ⟨hheld, hverifying.rows, (by simp), List.nodup_nil, fun v hv _ hunchanged => ?_,
      fun v hv => (hfits _ hv).restore rfl, hverifying.verified⟩
  obtain ⟨e, he, rfl⟩ := List.mem_map.mp (hplans ▸ hv)
  exact (hfits e he).unchanged (hunchanged e.2 he)

/-- A push that has stored all it verified succeeds. -/
theorem symbols_symbolsIndexed :
    R.Symbols t (Holding t k (R.Ready k vs [] claimed [] []))
      (call (.symbolsIndexed k (vs.map fun v => (v.key, v.bytes))))
      (fun _ => Holding t k (R.Rows k [])) (Holding t k (R.Rows k [])) := by
  refine symbols_call rfl (by simp) kept_ready fun w hw hinv o r w' hp ha => ?_
  obtain ⟨hheld, hready⟩ := hw
  have howner (s : SymbolKey) : w'.state.db.findSymbol s = w.state.db.findSymbol s := by
    simpa using owner_of_perform hp s
  have hfile (s : SymbolKey) : w'.state.storage.symbolFiles s = w.state.storage.symbolFiles s := by
    simpa using symbolFile_of_perform hp s
  have hawaits (s : SymbolKey) : awaits s w'.past = awaits s w.past := by
    simpa using awaits_of_perform hp s
  refine ⟨rfl, ?_, ?_⟩
  · intro howned s bytes hstanding
    suffices stands : Stands k s bytes w from ⟨(howner s).trans stands.owner,
      (hfile s).trans stands.file, (hawaits s).trans stands.awaits⟩
    rw [((server T).perform_eq_some.mp hp).2, Standing] at hstanding
    rcases hstanding with ⟨verified, hc, hmem⟩ | ⟨-, -, hbefore⟩
    · simp only [Call.symbolsIndexed.injEq, true_and] at hc
      subst hc
      obtain ⟨v, hv, heq⟩ := List.mem_map.mp hmem
      obtain ⟨rfl, rfl⟩ := Prod.mk.inj heq
      have howns := (ha.2.2 howned).2
      simp only [ownsVerified, List.all_eq_true] at howns
      have hv' := howns _ hmem
      simp only [Bool.and_eq_true, decide_eq_true_eq] at hv'
      obtain ⟨hs, hsame⟩ := hv'
      obtain ⟨hstored, found, hfound, hsha⟩ := hready.settled v hv (by simp) (by simp) howned hs
      have hbytes : found = v.bytes := by simpa [hfound, hsha] using hsame
      exact ⟨hs, hbytes ▸ hfound, hstored⟩
    · exact hinv.2 k howned s bytes hbefore
  · exact hready.rows.of_same (past_of_perform hp) fun s hs =>
      ⟨(howner s).symm.trans hs, hawaits s, fun _ _ => hfile s⟩

theorem symbols_indexSymbolsLocked (hversion : (R.tasks t).symbolVersion = some k)
    (feed : FeedName) (entries : List (String × Content)) :
    R.Symbols t (Holding t k (R.Rows k [])) (indexSymbolsLocked host.symbols k feed entries)
      (fun _ => Holding t k (R.Rows k [])) (Holding t k (R.Rows k [])) := by
  refine Triple.bind (symbols_minor kept_rows (calls_query trivial)) fun here => ?_
  refine Triple.bind (symbols_minor kept_rows calls_refuseIf) fun _ => ?_
  refine Triple.bind (symbols_minor kept_rows (calls_file trivial)) fun _ => ?_
  have opened : R.Symbols t (Holding t k (R.Rows k [])) (file (.openPackage k))
      (fun package => Holding t k fun w => R.Rows k [] w ∧
        ∃ e ∈ w.past, e.Shows (.storage (.openPackage k)) (.ok package))
      (Holding t k (R.Rows k [])) := by
    refine symbols_look rfl trivial kept_rows fun w hw hinv o r w' package hp hr => ?_
    obtain rfl : r = .ok package := hr
    rw [((server T).perform_eq_some.mp hp).2]
    exact ⟨_, List.mem_cons_self, t, o, rfl⟩
  refine Triple.bind opened fun package => ?_
  cases hverify : verify host.symbols package entries with
  | error e =>
    rw [ofResult_error_bind]
    exact Triple.throw fun w h => ⟨h.1, h.2.1⟩
  | ok vs =>
    rw [ofResult_ok_bind]
    have stored := symbols_storeAll (t := t) hversion (nodup_of_verify hverify)
    have verifying : ∀ w, Holding t k (fun w => R.Rows k [] w ∧
        ∃ e ∈ w.past, e.Shows (.storage (.openPackage k)) (.ok package)) w →
        Holding t k (R.Verifying k vs) w := fun w h => ⟨h.1, h.2.1, fun v hv => by
      obtain ⟨e, he, hshows⟩ := h.2.2
      exact Or.inr ⟨e, he, package, hshows, entries, vs, hverify, hv⟩⟩
    refine Triple.bind (stored.pre verifying) fun claimed => ?_
    have archived : R.Symbols t (Holding t k (R.Ready k vs [] claimed [] []))
        (file (.storeSymbolPackage k)) (fun _ => Holding t k (R.Ready k vs [] claimed [] []))
        (Holding t k (R.Ready k vs [] claimed [] [])) :=
      symbols_minor kept_ready (calls_file trivial)
    refine Triple.bind archived.attempt fun result => ?_
    cases result with
    | error e => exact (symbols_giveUp hversion e _).pre fun w h => ⟨h.1, h.2.undoing (by simp)⟩
    | ok _ => exact symbols_symbolsIndexed

end Push

end SymbolRun

end YaNuget
