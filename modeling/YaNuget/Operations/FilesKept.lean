import YaNuget.Concurrency.Triples
import YaNuget.Operations.VersionRows

/-!
# Attached files and their blobs

The blobs of the files of every version that some feed holds are stored, and
the files of a version change only while no feed has approved it, or by a task
that may set those approvals aside. A blob is deleted, and a row that names it
added, under the blob's lock.
-/
namespace YaNuget

open Concurrency Op Fallible Protocol

variable {T : Type} [DecidableEq T]

/-- The blobs of the attached files of every held version are stored. -/
def Store.BlobsStored (s : Store T) : Prop :=
  ∀ k, (s.db.rowsOf k).IsHeld → ∀ file ∈ s.db.filesFor k, (s.storage.blobs file.sha256).isSome

variable (stored : Prop) (authorized : T → FeedName → Prop)

/-- `authorized t f`: task `t` may change the files of a version approved in
`f`. Whether blobs are stored is looked at where `stored` holds. -/
def filing : Protocol T Call Call.Answer Bool (Store T) where
  inv w := stored → w.state.BlobsStored
  guar t w w' :=
    (∀ e past, w'.past = e :: past → ∀ sha, e.call.handles sha → w.state.blobLock sha = some t) ∧
      ∀ k, w'.state.db.filesFor k = w.state.db.filesFor k ∨
        ∀ f, (w.state.db.rowsOf k).Approved f → authorized t f
  allow := Disciplined

/-- What the call has to see to. -/
structure Careful (t : T) (c : Call) (w : StoreWorld T) : Prop where
  handled : ∀ sha, c.handles sha → w.state.blobLock sha = some t
  held : ∀ k, c.holds k → (w.state.db.rowsOf k).IsHeld ∨ w.state.db.filesFor k = []
  refiled : ∀ k, c.refiles k → ∀ f, (w.state.db.rowsOf k).Approved f → authorized t f
  deleted : ∀ sha, c = .storage (.deleteBlob sha) → ∀ k, (w.state.db.rowsOf k).IsHeld →
    ∀ file ∈ w.state.db.filesFor k, file.sha256 ≠ sha
  added : ∀ k file, c = .db (.addFile k file) → (w.state.storage.blobs file.sha256).isSome

variable {stored authorized} {t : T} {c : Call} {o : Bool} {w w' : StoreWorld T} {r : c.Answer}

/-- A careful call keeps the protocol. -/
theorem Careful.step (h : Careful authorized t c w)
    (hp : (server T).perform t c o w = some (r, w')) (hinv : (filing stored authorized).inv w) :
    (filing stored authorized).inv w' ∧ (filing stored authorized).guar t w w' := by
  obtain ⟨hexec, hpast⟩ := (server T).perform_eq_some.mp hp
  obtain ⟨hdb, hstorage⟩ := Store.exec_files hexec
  refine ⟨?_, ?_, ?_⟩
  · intro hstored k hheld file hfile
    rw [hdb] at hheld hfile
    have hmem := Call.mem_packageFiles ((Database.mem_filesFor _ k).mp hfile)
    have hblob : (w.state.storage.blobs file.sha256).isSome ∧
        c ≠ .storage (.deleteBlob file.sha256) := by
      rcases hmem with hmem | hadds
      · have hfile' := (w.state.db.mem_filesFor k).mpr hmem
        have hheld' : (w.state.db.rowsOf k).IsHeld := by
          by_cases hholds : c.holds k
          · refine (h.held k hholds).resolve_right fun hnone => ?_
            simp [hnone] at hfile'
          · exact Call.isHeld_before hholds hheld
        exact ⟨hinv hstored k hheld' file hfile', fun hdelete => h.deleted _ hdelete k hheld' file hfile' rfl⟩
      · exact ⟨h.added k file hadds, by simp [hadds]⟩
    rw [hstorage]
    exact Call.blobs_kept hblob.2 hblob.1
  · intro e past he sha hsha
    obtain ⟨rfl, -⟩ := List.cons.inj (hpast.symm.trans he)
    exact h.handled sha hsha
  · intro k
    by_cases hrefiles : c.refiles k
    · exact Or.inr (h.refiled k hrefiles)
    · rcases Call.files_of_not_refiles hrefiles with hsame | hnone
      · exact Or.inl (by rw [hdb]; exact hsame)
      · refine Or.inr fun f hf => ?_
        have hmem := (w.state.db.mem_approvedIn k).mpr hf
        simp [hnone] at hmem

section Assertions

def Knows (t : T) (k : VersionKey) (B : VersionRows → Prop) (s : Store T) : Prop :=
  s.versionLock k = some t ∧ B (s.db.rowsOf k)

def Handling (t : T) (sha : Digest) (s : Store T) : Prop := s.blobLock sha = some t

def KnowsStored (t : T) (sha : Digest) (s : Store T) : Prop :=
  s.blobLock sha = some t ∧ (s.storage.blobs sha).isSome

/-- Task `t` holds the lock of the blob, and all files that name it satisfy `p`. -/
def KnowsNamed (t : T) (sha : Digest) (p : VersionKey → Prop) (s : Store T) : Prop :=
  s.blobLock sha = some t ∧ ∀ e ∈ s.db.packageFiles, e.2.sha256 = sha → p e.1

variable (stored authorized) (t)

/-- The steps of other tasks and the plain calls of task `t` keep `A`. -/
structure Steadfast (A : Store T → Prop) : Prop where
  stable : (filing stored authorized).Stable (server T) t fun w => A w.state
  plain : ∀ {s s' : Store T}, A s → s.db.SameTables s'.db → s'.versionLock = s.versionLock →
    s'.blobLock = s.blobLock →
    (∀ sha, (s.storage.blobs sha).isSome → (s'.storage.blobs sha).isSome) → A s'

variable {stored authorized t} {A A' : Store T → Prop} {k : VersionKey} {sha : Digest}

theorem steadfast_true : Steadfast stored authorized t fun _ => True :=
  ⟨fun _ _ _ _ _ _ => trivial, fun _ _ _ _ _ => trivial⟩

theorem Steadfast.and (h : Steadfast stored authorized t A) (h' : Steadfast stored authorized t A') :
    Steadfast stored authorized t fun s => A s ∧ A' s :=
  ⟨h.stable.and h'.stable, fun hA same hv hb hs =>
    ⟨h.plain hA.1 same hv hb hs, h'.plain hA.2 same hv hb hs⟩⟩

theorem rowsOf_frame (hp : (server T).perform t c o w = some (r, w')) (hc : ¬ c.touches k) :
    w'.state.db.rowsOf k = w.state.db.rowsOf k := by
  have same := Call.frame ((server T).perform_eq_some.mp hp).1 hc
  unfold Database.rowsOf
  rw [same.package, same.files, same.pending]

theorem steadfast_knows (B : VersionRows → Prop) : Steadfast stored authorized t (Knows t k B) where
  stable := by
    rintro u hu w w' ⟨c, o, r, hp, hd, -⟩ ⟨hheld, hB⟩
    have hc : ¬ c.touches k := fun hc =>
      hu (Option.some.inj ((hd k (Call.changes_of_touches hc)).symm.trans hheld))
    exact ⟨versionLock_of_perform hp hu hheld, by rw [rowsOf_frame hp hc]; exact hB⟩
  plain h same hv _ _ := ⟨by rw [hv]; exact h.1, by rw [same.rowsOf]; exact h.2⟩

theorem not_handles_of_moves {u : T} (hu : u ≠ t) (hp : (server T).perform u c o w = some (r, w'))
    (hguar : (filing stored authorized).guar u w w') (hsha : w.state.blobLock sha = some t) :
    ¬ c.handles sha := by
  intro hc
  have hheld := hguar.1 _ _ ((server T).perform_eq_some.mp hp).2 sha hc
  exact hu (Option.some.inj (hheld.symm.trans hsha))

theorem steadfast_handling : Steadfast stored authorized t (Handling t sha) where
  stable := fun _ hu _ _ ⟨_, _, _, hp, _⟩ h => blobLock_of_perform hp hu h
  plain h _ _ hb _ := by
    unfold Handling
    rw [hb]
    exact h

theorem steadfast_knowsStored : Steadfast stored authorized t (KnowsStored t sha) where
  stable := by
    rintro u hu w w' ⟨c, o, r, hp, -, -, -, hguar⟩ ⟨hlock, hstored⟩
    refine ⟨blobLock_of_perform hp hu hlock, ?_⟩
    have hnot := not_handles_of_moves hu hp hguar hlock
    rw [(Store.exec_files ((server T).perform_eq_some.mp hp).1).2]
    exact Call.blobs_kept (by rintro rfl; exact hnot rfl) hstored
  plain h _ _ hb hs := ⟨by rw [hb]; exact h.1, hs _ h.2⟩

theorem steadfast_knowsNamed (p : VersionKey → Prop) :
    Steadfast stored authorized t (KnowsNamed t sha p) where
  stable := by
    rintro u hu w w' ⟨c, o, r, hp, -, -, -, hguar⟩ ⟨hlock, hnamed⟩
    refine ⟨blobLock_of_perform hp hu hlock, fun e he hsha => ?_⟩
    have hnot := not_handles_of_moves hu hp hguar hlock
    rw [(Store.exec_files ((server T).perform_eq_some.mp hp).1).1] at he
    rcases Call.mem_packageFiles he with he | rfl
    · exact hnamed e he hsha
    · exact (hnot hsha).elim
  plain h same _ hb _ := ⟨by rw [hb]; exact h.1, by rw [same.files]; exact h.2⟩

end Assertions

section Rules

variable {α β : Type} {A E : Store T → Prop} {x : Op α} {B : α → Store T → Prop}

/-- From `A`, task `t` runs `x` and keeps the protocol; it ends in `B` or, on an error, in `E`. -/
abbrev Files (stored : Prop) (authorized : T → FeedName → Prop) (t : T) (A : Store T → Prop) (x : Op α)
    (B : α → Store T → Prop) (E : Store T → Prop) : Prop :=
  Triple (server T) (filing stored authorized) t (fun w => A w.state) x (fun a w => B a w.state)
    fun w => E w.state

omit [DecidableEq T] in
theorem Careful.of_plain (hc : c.plain) : Careful authorized t c w where
  handled sha h := by
    cases c with
    | db q => cases q <;> first | exact h.elim | exact hc.elim
    | storage q => cases q <;> first | exact h.elim | exact hc.elim
    | _ => exact h.elim
  held k h := by
    cases c with
    | db q => cases q <;> first | exact h.elim | exact hc.elim
    | _ => exact h.elim
  refiled k h := by
    cases c with
    | db q => cases q <;> first | exact h.elim | exact hc.elim
    | _ => exact h.elim
  deleted sha h := by
    subst h
    exact hc.elim
  added k file h := by
    subst h
    exact hc.elim

theorem files_plain (hA : Steadfast stored authorized t A) (hx : x.run.Calls Call.plain) :
    Files stored authorized t A x (fun _ => A) A := by
  refine Triple.of_maintains (Protocol.Maintains.of_calls hA.stable ?_ hx)
  intro c hc w hw hinv o r w' hp _
  obtain ⟨hinv', hguar⟩ := (Careful.of_plain hc).step hp hinv
  have hexec := ((server T).perform_eq_some.mp hp).1
  obtain ⟨hdb, hstorage⟩ := Store.exec_files hexec
  refine ⟨hinv', hguar, hA.plain hw ?_ ?_ ?_ fun sha h => ?_⟩
  · rw [hdb]
    exact Call.sameTables_of_plain o hc
  · rcases Store.exec_versionLock hexec with ⟨_, rfl, -⟩ | ⟨_, rfl, -⟩ | ⟨-, heq⟩
    · exact hc.elim
    · exact hc.elim
    · exact heq
  · rcases Store.exec_blobLock hexec with ⟨_, rfl, -⟩ | ⟨_, rfl, -⟩ | heq
    · exact hc.elim
    · exact hc.elim
    · exact heq
  · rw [hstorage]
    exact Call.blobs_kept (by rintro rfl; exact hc.elim) h

/-- A query, answered in the state it is asked in, or without effect. -/
theorem files_query {q : DbCall} {B : q.Answer → Store T → Prop}
    (hA : Steadfast stored authorized t A)
    (hcareful : ∀ w : StoreWorld T, A w.state → Careful authorized t (.db q) w)
    (hB : ∀ s a, A s → (q.run s.db).1 = .ok a → B a { s with db := (q.run s.db).2 })
    (hE : ∀ s, A s → E s) : Files stored authorized t A (query q) B E := by
  intro w hw
  refine Protocol.Safe.call hA.stable hw fun w hw hinv o r w' hp _ => ?_
  obtain ⟨hinv', hguar⟩ := (hcareful w hw).step hp hinv
  refine ⟨hinv', hguar, ?_⟩
  rcases Store.exec_query (t := t) ((server T).perform_eq_some.mp hp).1 with ⟨hr, hs⟩ | ⟨hr, hs⟩
  · rw [hr]
    change E w'.state
    rw [hs]
    exact hE _ hw
  · rw [hr]
    cases ha : (q.run w.state.db).1 with
    | ok a =>
      change B a w'.state
      rw [hs]
      exact hB _ a hw ha
    | error e =>
      change E w'.state
      rw [hs, DbCall.run_error ha]
      exact hE _ hw

theorem files_look {q : DbCall} {D : q.Answer → Store T → Prop} (hA : Steadfast stored authorized t A)
    (hq : q.looks) (hD : ∀ s a, A s → (q.run s.db).1 = .ok a → D a { s with db := (q.run s.db).2 }) :
    Files stored authorized t A (query q) (fun a s => A s ∧ D a s) A := by
  refine files_query hA (fun w _ => .of_plain hq) (fun s a hs ha => ⟨?_, hD s a hs ha⟩)
    fun _ h => h
  exact hA.plain hs (DbCall.sameTables_of_looks hq) rfl rfl fun _ h => h

/-- A storage call, carried out or failed. -/
theorem files_file {q : StorageCall} {B : q.Answer → Store T → Prop}
    (hA : Steadfast stored authorized t A)
    (hcareful : ∀ w : StoreWorld T, A w.state → Careful authorized t (.storage q) w)
    (hfails : ∀ a, q.failed ≠ .ok a)
    (hB : ∀ s a, A s → (q.run s.storage).1 = .ok a → B a { s with storage := (q.run s.storage).2 })
    (hE : ∀ s s', A s → s' = s ∨ s' = { s with storage := (q.run s.storage).2 } → E s') :
    Files stored authorized t A (file q) B E := by
  intro w hw
  refine Protocol.Safe.call hA.stable hw fun w hw hinv o r w' hp _ => ?_
  obtain ⟨hinv', hguar⟩ := (hcareful w hw).step hp hinv
  refine ⟨hinv', hguar, ?_⟩
  have hexec := ((server T).perform_eq_some.mp hp).1
  cases o with
  | true =>
    obtain ⟨hr, hs⟩ : q.failed = r ∧ w.state = w'.state := by
      simpa [server, Store.exec] using hexec
    cases hf : q.failed with
    | ok a => exact (hfails a hf).elim
    | error e =>
      rw [← hr, hf]
      exact hE _ _ hw (Or.inl hs.symm)
  | false =>
    obtain ⟨hr, hs⟩ : (q.run w.state.storage).1 = r ∧
        { w.state with storage := (q.run w.state.storage).2 } = w'.state := by
      simpa [server, Store.exec] using hexec
    cases ha : (q.run w.state.storage).1 with
    | ok a =>
      rw [← hr, ha]
      change B a w'.state
      rw [← hs]
      exact hB _ a hw ha
    | error e =>
      rw [← hr, ha]
      exact hE _ _ hw (Or.inr hs.symm)

/-- A section under a blob's lock. -/
theorem files_withBlobLock {sha : Digest} (hA : Steadfast stored authorized t A)
    (hfree : ∀ s lock, A s → A { s with blobLock := lock })
    (h : Files stored authorized t (fun s => A s ∧ Handling t sha s) x (fun _ s => A s ∧ Handling t sha s)
      fun s => A s ∧ Handling t sha s) :
    Files stored authorized t A (withBlobLock sha x) (fun _ => A) A := by
  have hlocked : Steadfast stored authorized t fun s => A s ∧ Handling t sha s :=
    hA.and steadfast_handling
  have step {c : Call} {o : Bool} {w w' : StoreWorld T} {r : c.Answer}
      (hc : c = .lockBlob sha ∨ c = .unlockBlob sha)
      (hp : (server T).perform t c o w = some (r, w')) (hinv : (filing stored authorized).inv w) :
      (filing stored authorized).inv w' ∧ (filing stored authorized).guar t w w' := by
    have careful : Careful authorized t c w := by
      rcases hc with rfl | rfl
      · exact ⟨fun _ => False.elim, fun _ => False.elim, fun _ => False.elim, (by simp), by simp⟩
      · exact ⟨fun _ => False.elim, fun _ => False.elim, fun _ => False.elim, (by simp), by simp⟩
    exact careful.step hp hinv
  intro w hw
  refine Protocol.Safe.call hA.stable hw fun w hw hinv o _ w₁ hp _ => ?_
  obtain ⟨hinv₁, hguar₁⟩ := step (Or.inl rfl) hp hinv
  have hstate : w₁.state = { w.state with
      blobLock := Function.update w.state.blobLock sha (some t) } := by
    have hexec := ((server T).perform_eq_some.mp hp).1
    simp only [server, Store.exec, Option.ite_none_right_eq_some, Option.some.injEq,
      Prod.mk.injEq] at hexec
    exact hexec.2.2.symm
  have hw₁ : A w₁.state ∧ Handling t sha w₁.state := by
    rw [hstate]
    exact ⟨hfree _ _ hw, Function.update_self ..⟩
  refine ⟨hinv₁, hguar₁, Protocol.Safe.bindExcept (Protocol.Safe.bind ((h w₁ hw₁).mono ?_))⟩
  intro result w₂ hresult
  have hw₂ : A w₂.state ∧ Handling t sha w₂.state := by
    cases result with
    | ok a => exact hresult
    | error e => exact hresult
  refine Protocol.Safe.call hlocked.stable hw₂ fun w₂ hw₂ hinv₂ o _ w₃ hp₃ _ => ?_
  obtain ⟨hinv₃, hguar₃⟩ := step (Or.inr rfl) hp₃ hinv₂
  have hw₃ : A w₃.state := by
    have hexec := ((server T).perform_eq_some.mp hp₃).1
    simp only [server, Store.exec, Option.ite_none_right_eq_some, Option.some.injEq,
      Prod.mk.injEq] at hexec
    rw [← hexec.2.2]
    exact hfree _ _ hw₂.1
  refine ⟨hinv₃, hguar₃, ?_⟩
  cases result with
  | ok a => exact hw₃
  | error e => exact hw₃

end Rules

end YaNuget
