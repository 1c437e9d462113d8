import YaNuget.Operations.Footprints
import YaNuget.Concurrency.RelyGuarantee

/-!
# The lock discipline

In every run, what a version's lock guards is changed only by the task that
holds the lock. Each operation keeps to this by itself, whatever the others do,
so the discipline may be assumed of every run.
-/
namespace YaNuget

open Concurrency Op Fallible

abbrev StoreEvent (T : Type) := Event T Call Call.Answer Bool

abbrev StoreWorld (T : Type) := World T Call Call.Answer Bool (Store T)

variable {T : Type} [DecidableEq T]

def Disciplined (w : StoreWorld T) (e : StoreEvent T) (_ : StoreWorld T) : Prop :=
  ∀ k, e.call.changes k → w.state.versionLock k = some e.thread

def Held (t : T) (ks : List VersionKey) (w : StoreWorld T) : Prop :=
  ∀ k ∈ ks, w.state.versionLock k = some t

theorem perform_lockVersion {t : T} {k : VersionKey} {o : Bool} {w w' : StoreWorld T} {r : Unit}
    (h : (server T).perform t (.lockVersion k) o w = some (r, w')) :
    w.state.versionLock k = none ∧
      w'.state = { w.state with versionLock := Function.update w.state.versionLock k (some t) } := by
  have hexec := ((server T).perform_eq_some.mp h).1
  simp only [server, Store.exec, Option.ite_none_right_eq_some, Option.some.injEq,
    Prod.mk.injEq] at hexec
  exact ⟨hexec.1, hexec.2.2.symm⟩

theorem perform_unlockVersion {t : T} {k : VersionKey} {o : Bool} {w w' : StoreWorld T} {r : Unit}
    (h : (server T).perform t (.unlockVersion k) o w = some (r, w')) :
    w.state.versionLock k = some t ∧
      w'.state = { w.state with versionLock := Function.update w.state.versionLock k none } := by
  have hexec := ((server T).perform_eq_some.mp h).1
  simp only [server, Store.exec, Option.ite_none_right_eq_some, Option.some.injEq,
    Prod.mk.injEq] at hexec
  exact ⟨hexec.1, hexec.2.2.symm⟩

theorem perform_query_ok {t : T} {q : DbCall} {o : Bool} {w w' : StoreWorld T} {a : q.Answer}
    (h : (server T).perform t (.db q) o w = some (.ok a, w')) :
    (q.run w.state.db).1 = .ok a := by
  have hexec := ((server T).perform_eq_some.mp h).1
  rcases Store.exec_query (t := t) hexec with ⟨hr, -⟩ | ⟨hr, -⟩
  · cases hr
  · exact hr.symm

theorem perform_file_ok {t : T} {q : StorageCall} {o : Bool} {w w' : StoreWorld T} {a : q.Answer}
    (hfails : q.failed ≠ .ok a)
    (h : (server T).perform t (.storage q) o w = some (.ok a, w')) :
    (q.run w.state.storage).1 = .ok a := by
  have hexec := ((server T).perform_eq_some.mp h).1
  cases o with
  | true =>
    have hfailed : q.failed = .ok a := by
      simpa [server, Store.exec] using congrArg (Option.map Prod.fst) hexec
    exact (hfails hfailed).elim
  | false => simpa [server, Store.exec] using congrArg (Option.map Prod.fst) hexec

theorem openFile_eq_ok {stored : Option Content} {bytes : Content} :
    openFile stored = .ok bytes ↔ stored = some bytes := by
  cases stored <;> simp [openFile]

/-- A lock stays with its holder through the steps of others. -/
theorem versionLock_of_perform {t u : T} {c : Call} {o : Bool} {w w' : StoreWorld T} {r : c.Answer}
    (h : (server T).perform u c o w = some (r, w')) (hu : u ≠ t) {k : VersionKey}
    (hk : w.state.versionLock k = some t) : w'.state.versionLock k = some t := by
  have hexec := ((server T).perform_eq_some.mp h).1
  rcases Store.exec_versionLock hexec with ⟨k', -, hfree, heq⟩ | ⟨k', -, hheld, heq⟩ | ⟨-, heq⟩
  · have hne : k ≠ k' := by
      rintro rfl
      simp [hk] at hfree
    rw [heq, Function.update_of_ne hne, hk]
  · have hne : k ≠ k' := by
      rintro rfl
      rw [hk] at hheld
      exact hu (Option.some.inj hheld).symm
    rw [heq, Function.update_of_ne hne, hk]
  · rw [heq, hk]

theorem versionLock_of_within {t : T} {c : Call} {o : Bool} {w w' : StoreWorld T} {r : c.Answer}
    {ks : List VersionKey} (h : (server T).perform t c o w = some (r, w')) (hc : c.within ks) :
    w'.state.versionLock = w.state.versionLock := by
  rcases Store.exec_versionLock ((server T).perform_eq_some.mp h).1 with
    ⟨k, rfl, -⟩ | ⟨k, rfl, -⟩ | ⟨-, heq⟩
  · exact hc.elim
  · exact hc.elim
  · exact heq

theorem Call.changes_of_within {c : Call} {ks : List VersionKey} (h : c.within ks) {k : VersionKey}
    (hk : c.changes k) : k ∈ ks := by
  unfold Call.within at h
  split at h
  iterate 5 exact h.elim
  exact h k hk

def Call.under (ks : List VersionKey) : Call → Prop
  | .lockVersion _ | .unlockVersion _ => False
  | c => ∀ k, c.changes k → k ∈ ks

theorem Call.under_of_within {ks : List VersionKey} {c : Call} (h : c.within ks) : c.under ks := by
  cases c with
  | lockVersion | unlockVersion => exact h.elim
  | symbolsIndexed | respond => exact h.elim
  | _ => exact fun k hk => Call.changes_of_within h hk

theorem Call.changes_of_under {ks : List VersionKey} {c : Call} (h : c.under ks) {k : VersionKey}
    (hk : c.changes k) : k ∈ ks := by
  cases c with
  | lockVersion | unlockVersion => exact h.elim
  | _ => exact h k hk

theorem versionLock_of_under {t : T} {c : Call} {o : Bool} {w w' : StoreWorld T} {r : c.Answer}
    {ks : List VersionKey} (h : (server T).perform t c o w = some (r, w')) (hc : c.under ks) :
    w'.state.versionLock = w.state.versionLock := by
  rcases Store.exec_versionLock ((server T).perform_eq_some.mp h).1 with
    ⟨k, rfl, -⟩ | ⟨k, rfl, -⟩ | ⟨-, heq⟩
  · exact hc.elim
  · exact hc.elim
  · exact heq

def discipline : Protocol T Call Call.Answer Bool (Store T) where
  inv _ := True
  guar _ w w' := ∀ e past, w'.past = e :: past → Disciplined w e w'
  allow _ _ _ := True

theorem quiet_step {t : T} {c : Call} {o : Bool} {w w' : StoreWorld T} {r : c.Answer}
    (h : (server T).perform t c o w = some (r, w'))
    (hc : ∀ k, c.changes k → w.state.versionLock k = some t) : discipline.guar t w w' := by
  intro e past he k hk
  obtain ⟨rfl, -⟩ := List.cons.inj (((server T).perform_eq_some.mp h).2.symm.trans he)
  exact hc k hk

/-- `x`, run by a task that holds the locks `ks`, keeps to the discipline. -/
def Guarded (T : Type) [DecidableEq T] (ks : List VersionKey) {α : Type} (x : Op α) : Prop :=
  ∀ t : T, discipline.Maintains (server T) t (Held t ks) x

theorem stable_held (P : Protocol T Call Call.Answer Bool (Store T)) (t : T)
    (ks : List VersionKey) : P.Stable (server T) t (Held t ks) :=
  fun _ hu _ _ ⟨_, _, _, hp, _⟩ h k hk => versionLock_of_perform hp hu (h k hk)

/-- What holds of each part of a program that leaves the version locks alone and
changes only versions whose locks `ks` are held, and of what takes one more lock. -/
structure Scoped (J : List VersionKey → ∀ {α : Type}, Op α → Prop) : Prop where
  closed (ks : List VersionKey) : Closed (fun {α : Type} (x : Op α) => J ks x)
  calls {α : Type} {ks : List VersionKey} {x : Op α} : x.run.Calls (Call.under ks) → J ks x
  locked {α : Type} {ks : List VersionKey} {k : VersionKey} {x : Op α} :
    J (k :: ks) x → J ks (withVersionLock k x)

namespace Scoped

variable {J : List VersionKey → ∀ {α : Type}, Op α → Prop} (hJ : Scoped J)
variable {α : Type} {ks : List VersionKey} {x : Op α}

include hJ

theorem within (h : x.run.Calls (Call.within ks)) : J ks x :=
  hJ.calls (h.mono fun _ => Call.under_of_within)

theorem allLocked {locks : List VersionKey} (h : J (locks.reverse ++ ks) x) :
    J ks (withVersionLocks locks x) := by
  induction locks generalizing ks with
  | nil => exact h
  | cons k locks ih => exact hJ.locked (ih (by simpa using h))

theorem sections (site : Site) :
    Sections site (fun _ _ => True) (fun {α : Type} (x : Op α) => J [] x) where
  query q h := hJ.within
    (calls_query (Call.within_of_unchanging (DbCall.not_changes_of_unlocked h) []))
  arrive feed k := hJ.within (calls_call fun _ hk => hk.elim)
  purge feed k := hJ.locked (hJ.within (calls_purgeLocked feed k))
  planned feed k := hJ.locked (hJ.within (calls_purgePlannedLocked feed k))
  sweep k := hJ.locked (hJ.within (calls_sweepLocked k))
  index feed incoming options _ := hJ.locked (hJ.within
    ((calls_indexLocked site feed incoming options).mono fun _ => Call.within_of_indexes))
  approve feed v shown := hJ.locked (hJ.within
    ((calls_approveLocked site feed v shown).mono fun _ => Call.within_of_approves))
  approveMany feed id versions shown := hJ.allLocked (hJ.within
    ((calls_approveManyLocked site feed id versions shown).mono fun _ h =>
      Call.within_mono (Call.within_of_approves h) fun _ hk => by simpa using hk))
  transfer source target k mode :=
    hJ.locked (hJ.within (calls_transferLocked source k target mode))

end Scoped

theorem scoped_guarded : Scoped fun ks {α : Type} (x : Op α) => Guarded T ks x where
  closed ks :=
    { result := fun x t => (Protocol.closed_maintains _ _ t _).result x
      bind := fun hx hf t => (Protocol.closed_maintains _ _ t _).bind (hx t) fun a => hf a t
      attempt := fun hx t => (Protocol.closed_maintains _ _ t _).attempt (hx t) }
  calls {α ks x} h t := by
    refine Protocol.Maintains.of_calls (stable_held _ t ks) ?_ h
    intro c hc w hw _ o r w' hp _
    refine ⟨trivial, quiet_step hp fun k hk => hw k (Call.changes_of_under hc hk), fun k hk => ?_⟩
    rw [versionLock_of_under hp hc]
    exact hw k hk
  locked {α ks k x} h t w hw := by
    refine Protocol.Safe.call (stable_held _ t ks) hw fun w hw _ o _ w₁ hp _ => ?_
    obtain ⟨hfree, hstate⟩ := perform_lockVersion hp
    have hks : ∀ k' ∈ ks, k' ≠ k := by
      rintro k' hk' rfl
      simp [hw k' hk'] at hfree
    refine ⟨trivial, quiet_step hp fun _ hk => hk.elim, ?_⟩
    have hheld : Held t (k :: ks) w₁ := by
      intro k' hk'
      rw [hstate]
      rcases List.mem_cons.mp hk' with rfl | hk'
      · exact Function.update_self ..
      · exact (Function.update_of_ne (hks k' hk') ..).trans (hw k' hk')
    refine Protocol.Safe.bindExcept (Protocol.Safe.bind ((h t w₁ hheld).mono ?_))
    intro result w hheld
    refine Protocol.Safe.call (stable_held _ t (k :: ks)) hheld fun w hheld _ o _ w₂ hp _ => ?_
    refine ⟨trivial, quiet_step hp fun _ hk => hk.elim, fun k' hk' => ?_⟩
    rw [(perform_unlockVersion hp).2]
    exact (Function.update_of_ne (hks k' hk') ..).trans (hheld k' (List.mem_cons_of_mem k hk'))

section Released

/-- Task `t` holds no version locks but `ks`. -/
def HoldsOnly (t : T) (ks : List VersionKey) (w : StoreWorld T) : Prop :=
  ∀ k, w.state.versionLock k = some t → k ∈ ks

def anyStep : Protocol T Call Call.Answer Bool (Store T) where
  inv _ := True
  guar _ _ _ := True
  allow _ _ _ := True

theorem stable_holdsOnly (t : T) (ks : List VersionKey) :
    anyStep.Stable (server T) t (HoldsOnly t ks) := by
  rintro u hu w w' ⟨c, o, r, hp, -⟩ h k hk
  apply h
  have hexec := ((server T).perform_eq_some.mp hp).1
  rcases Store.exec_versionLock hexec with ⟨k', -, -, heq⟩ | ⟨k', -, -, heq⟩ | ⟨-, heq⟩
  · rw [heq] at hk
    by_cases hne : k = k'
    · subst hne
      simp [hu] at hk
    · rwa [Function.update_of_ne hne] at hk
  · rw [heq] at hk
    by_cases hne : k = k'
    · subst hne
      simp at hk
    · rwa [Function.update_of_ne hne] at hk
  · rwa [heq] at hk

/-- Every part of a program gives back the locks it takes. -/
theorem scoped_released : Scoped fun ks {α : Type} (x : Op α) =>
    ∀ t : T, anyStep.Maintains (server T) t (HoldsOnly t ks) x where
  closed ks :=
    { result := fun x t => (Protocol.closed_maintains _ _ t _).result x
      bind := fun hx hf t => (Protocol.closed_maintains _ _ t _).bind (hx t) fun a => hf a t
      attempt := fun hx t => (Protocol.closed_maintains _ _ t _).attempt (hx t) }
  calls {α ks x} h t := by
    refine Protocol.Maintains.of_calls (stable_holdsOnly t ks) ?_ h
    intro c hc w hw _ o r w' hp _
    refine ⟨trivial, trivial, fun k hk => hw k ?_⟩
    rwa [versionLock_of_under hp hc] at hk
  locked {α ks k x} h t w hw := by
    refine Protocol.Safe.call (stable_holdsOnly t ks) hw fun w hw _ o _ w₁ hp _ => ?_
    refine ⟨trivial, trivial, ?_⟩
    have honly : HoldsOnly t (k :: ks) w₁ := by
      intro k' hk'
      by_cases hne : k' = k
      · exact hne ▸ List.mem_cons_self
      · rw [(perform_lockVersion hp).2] at hk'
        have hk' : w.state.versionLock k' = some t := by
          simpa [Function.update_of_ne hne] using hk'
        exact List.mem_cons_of_mem k (hw k' hk')
    refine Protocol.Safe.bindExcept (Protocol.Safe.bind ((h t w₁ honly).mono ?_))
    intro result w honly
    refine Protocol.Safe.call (stable_holdsOnly t (k :: ks)) honly fun w honly _ o _ w₂ hp _ => ?_
    refine ⟨trivial, trivial, fun k' hk' => ?_⟩
    rw [(perform_unlockVersion hp).2] at hk'
    by_cases hne : k' = k
    · simp [hne] at hk'
    · have hk' : w.state.versionLock k' = some t := by
        simpa [Function.update_of_ne hne] using hk'
      exact (List.mem_cons.mp (honly k' hk')).resolve_left hne

end Released

section Runs

variable {site : Site} {ops : T → Operation} {s : Store T}
variable {allow : Machine.Allowed T Call Call.Answer Bool (Store T)}
variable {c : Config T Call Call.Answer Bool (Store T)}

theorem discipline_start : discipline.Keeps (server T) (serving site s ops) := by
  refine ⟨trivial, fun t => Protocol.Safe.bind ?_⟩
  have guarded := ((scoped_guarded (T := T)).sections site).run (scoped_guarded.closed []) (ops t) fun _ _ _ => trivial
  exact (guarded t _ (by simp [Held])).mono fun _ _ _ => trivial

theorem disciplined_step (h : (server T).Reaches allow (serving site s ops) c) {t : T} {o : Bool}
    {call : Call} {r : call.Answer} {next : call.Answer → Program Call Call.Answer Unit}
    {w : StoreWorld T} (ht : c.threads t = .call call next)
    (hp : (server T).perform t call o c.world = some (r, w)) :
    Disciplined c.world ⟨t, call, o, r⟩ w :=
  have keeps := discipline_start.reaches (h.mono fun _ _ _ _ => trivial)
  (keeps.step ht hp trivial).1 _ _ ((server T).perform_eq_some.mp hp).2

theorem disciplined (h : (server T).Reaches allow (serving site s ops) c) :
    (server T).Reaches (fun w e w' => allow w e w' ∧ Disciplined w e w') (serving site s ops) c :=
  h.strengthen fun _ hreach _ _ _ _ _ _ ht hp _ => disciplined_step hreach ht hp

end Runs

end YaNuget
