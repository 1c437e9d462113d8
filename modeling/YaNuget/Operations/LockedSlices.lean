import YaNuget.Operations.LockDiscipline
import YaNuget.Concurrency.Ownership

/-!
# Invariants of what a lock guards

A slice of the store that only the holder of a version's lock changes. What the
holder does to it can be followed as if no other task were running, so an
invariant of the slice that each section keeps, step by step, holds in every
state of every run.
-/
namespace YaNuget

open Concurrency Op Fallible

variable {T : Type} [DecidableEq T]

section Locks

variable {P : Protocol T Call Call.Answer Bool (Store T)} {t : T} {α : Type} {x : Op α}

def IgnoresLocks (P : Protocol T Call Call.Answer Bool (Store T)) : Prop :=
  ∀ {t : T} {c : Call} {k : VersionKey} {o : Bool} {w w' : StoreWorld T} {r : c.Answer},
    c = .lockVersion k ∨ c = .unlockVersion k → (server T).perform t c o w = some (r, w') →
    P.inv w → P.inv w' ∧ P.guar t w w'

theorem maintains_locked (hP : IgnoresLocks P) {k : VersionKey} {ks : List VersionKey}
    (h : P.Maintains (server T) t (Held t (k :: ks)) x) :
    P.Maintains (server T) t (Held t ks) (withVersionLock k x) := by
  intro w hw
  refine Protocol.Safe.call (stable_held P t ks) hw fun w hw hinv o _ w₁ hp _ => ?_
  obtain ⟨hfree, hstate⟩ := perform_lockVersion hp
  have hks : ∀ k' ∈ ks, k' ≠ k := by
    rintro k' hk' rfl
    simp [hw k' hk'] at hfree
  obtain ⟨hinv₁, hguar₁⟩ := hP (Or.inl rfl) hp hinv
  refine ⟨hinv₁, hguar₁, ?_⟩
  have hheld : Held t (k :: ks) w₁ := by
    intro k' hk'
    rw [hstate]
    rcases List.mem_cons.mp hk' with rfl | hk'
    · exact Function.update_self ..
    · exact (Function.update_of_ne (hks k' hk') ..).trans (hw k' hk')
  refine Protocol.Safe.bindExcept (Protocol.Safe.bind ((h w₁ hheld).mono ?_))
  intro result w hheld
  refine Protocol.Safe.call (stable_held P t (k :: ks)) hheld fun w hheld hinv o _ w₂ hp _ => ?_
  obtain ⟨hinv₂, hguar₂⟩ := hP (Or.inr rfl) hp hinv
  refine ⟨hinv₂, hguar₂, fun k' hk' => ?_⟩
  rw [(perform_unlockVersion hp).2]
  exact (Function.update_of_ne (hks k' hk') ..).trans (hheld k' (List.mem_cons_of_mem k hk'))

theorem maintains_allLocked (hP : IgnoresLocks P) {locks ks : List VersionKey}
    (h : P.Maintains (server T) t (Held t (locks.reverse ++ ks)) x) :
    P.Maintains (server T) t (Held t ks) (withVersionLocks locks x) := by
  induction locks generalizing ks with
  | nil => exact h
  | cons k locks ih => exact maintains_locked hP (ih (by simpa using h))

end Locks

section Slices

variable {V : Type} {slice : Store T → V} {I : V → Prop} {k : VersionKey} {α : Type} {x : Op α}

def GuardedBy (k : VersionKey) (slice : Store T → V) : Prop :=
  ∀ {t : T} {c : Call} {o : Bool} {s s' : Store T} {r : c.Answer},
    Store.exec t c o s = some (r, s') → ¬ c.changes k → slice s' = slice s

def SliceStep (slice : Store T → V) (v : V) (c : Call) (r : c.Answer) (v' : V) : Prop :=
  ∃ t o s s', slice s = v ∧ slice s' = v' ∧ Store.exec t c o s = some (r, s')

/-- Run by the holder of the lock, `x` keeps `I`, in every state on the way. -/
abbrev KeepsSlice (slice : Store T → V) (I : V → Prop) (x : Op α) : Prop :=
  Preserves (SliceStep slice) (fun _ v => I v) I x

def slicing (slice : Store T → V) (I : V → Prop) : Protocol T Call Call.Answer Bool (Store T) where
  inv w := I (slice w.state)
  guar _ _ _ := True
  allow := Disciplined

theorem SliceStep.of_perform {t : T} {c : Call} {o : Bool} {w w' : StoreWorld T} {r : c.Answer}
    (h : (server T).perform t c o w = some (r, w')) :
    SliceStep slice (slice w.state) c r (slice w'.state) :=
  ⟨t, o, _, _, rfl, rfl, ((server T).perform_eq_some.mp h).1⟩

variable (hslice : GuardedBy k slice)

include hslice

theorem slice_of_perform {t : T} {c : Call} {o : Bool} {w w' : StoreWorld T} {r : c.Answer}
    (h : (server T).perform t c o w = some (r, w')) (hc : ¬ c.changes k) :
    slice w'.state = slice w.state :=
  hslice ((server T).perform_eq_some.mp h).1 hc

theorem slicing_ignoresLocks : IgnoresLocks (slicing slice I) := by
  rintro t c k' o w w' r hc hp (hinv : I _)
  refine ⟨show I _ from ?_, trivial⟩
  rw [slice_of_perform hslice hp (by rcases hc with rfl | rfl <;> exact id)]
  exact hinv

theorem slicing_elsewhere {t : T} {c : Call} {o : Bool} {w w' : StoreWorld T} {r : c.Answer}
    (h : (server T).perform t c o w = some (r, w')) (hc : ¬ c.changes k)
    (hinv : (slicing slice I).inv w) :
    (slicing slice I).inv w' ∧ (slicing slice I).guar t w w' := by
  refine ⟨show I _ from ?_, trivial⟩
  rw [slice_of_perform hslice h hc]
  exact hinv

theorem owns_slice (t : T) : Protocol.Owns (server T) (slicing slice I) t (Held t [k])
    (fun w => slice w.state) (Call.within [k]) (SliceStep slice) (fun _ v => I v) where
  stable v := by
    rintro u hu w w' hmove ⟨hheld, rfl⟩
    refine ⟨stable_held _ t [k] u hu w w' hmove hheld, ?_⟩
    obtain ⟨c, o, r, hp, ha, -⟩ := hmove
    refine slice_of_perform hslice hp fun hc => hu ?_
    exact Option.some.inj ((ha k hc).symm.trans (hheld k List.mem_cons_self))
  acts := by
    rintro w c o r w' hc hheld - hp -
    exact ⟨.of_perform hp, fun k' hk' =>
      (congrFun (versionLock_of_within hp hc) k').trans (hheld k' hk')⟩
  keeps _ _ _ _ _ hok := ⟨hok, trivial⟩

theorem maintains_elsewhere {t : T} {ks : List VersionKey} {φ : Call → Prop}
    (hcalls : x.run.Calls φ) (hφ : ∀ c, φ c → c.within ks ∧ ¬ c.changes k) :
    (slicing slice I).Maintains (server T) t (Held t ks) x := by
  refine Protocol.Maintains.of_calls (stable_held _ t ks) ?_ hcalls
  intro c hc w hw hinv o r w' hp _
  obtain ⟨hwithin, hchanges⟩ := hφ c hc
  obtain ⟨hinv', hguar⟩ := slicing_elsewhere hslice hp hchanges hinv
  exact ⟨hinv', hguar, fun j hj => (congrFun (versionLock_of_within hp hwithin) j).trans (hw j hj)⟩

/-- What keeps `I` under the lock of `k` keeps it under that of any version, as
long as it changes no other. -/
theorem maintains_section {t : T} {k' : VersionKey} (hcalls : x.run.Calls (Call.within [k']))
    (h : k' = k → KeepsSlice slice I x) :
    (slicing slice I).Maintains (server T) t (Held t []) (withVersionLock k' x) := by
  refine maintains_locked (slicing_ignoresLocks hslice) ?_
  by_cases hk : k' = k
  · subst hk
    exact (owns_slice hslice t).maintains hcalls (fun _ h => h) (h rfl)
  · refine maintains_elsewhere hslice hcalls fun c hc => ⟨hc, fun hk' => hk ?_⟩
    exact (List.mem_singleton.mp (Call.changes_of_within hc hk')).symm

end Slices

section Runs

variable {V : Type} {slice : Store T → V} {I : V → Prop} {k : VersionKey} {site : Site}
variable {pushes : FeedName → Content → IndexOptions → Prop} {targets : FeedMeta → Prop}

/-- Each section of an operation that works on version `k` keeps `I`. -/
structure SectionsKeep (site : Site) (pushes : FeedName → Content → IndexOptions → Prop)
    (targets : FeedMeta → Prop) (k : VersionKey) (slice : Store T → V) (I : V → Prop) : Prop where
  purge (feed : FeedName) : KeepsSlice slice I (purgeLocked feed k)
  planned (feed : FeedName) : KeepsSlice slice I (purgePlannedLocked feed k)
  sweep : KeepsSlice slice I (sweepLocked k)
  index (feed : FeedName) (bytes : Content) (options : IndexOptions)
    (incoming : Incoming site.sha512) : pushes feed bytes options →
    accept site bytes options = .ok incoming → incoming.package.key = k →
    KeepsSlice slice I (indexLocked site feed incoming options)
  approves {ks : List VersionKey} {c : Call} {v v' : V} {r : c.Answer} :
    c.approves ks → SliceStep slice v c r v' → I v → I v'
  transfer (source : FeedName) (target : FeedMeta) (mode : Transfer) : targets target →
    KeepsSlice slice I (transferLocked source target k mode)

theorem maintains_approval {t : T} {ks : List VersionKey} {α : Type} {x : Op α}
    (h : SectionsKeep site pushes targets k slice I) (hx : x.run.Calls (Call.approves ks)) :
    (slicing slice I).Maintains (server T) t (Held t ks) x := by
  refine Protocol.Maintains.of_calls (stable_held _ t ks) ?_ hx
  intro c hc w hw hinv o r w' hp _
  exact ⟨h.approves hc (.of_perform hp) hinv, trivial, fun j hj =>
    (congrFun (versionLock_of_within hp (Call.within_of_approves hc)) j).trans (hw j hj)⟩

theorem SectionsKeep.parts (hslice : GuardedBy k slice)
    (h : SectionsKeep site pushes targets k slice I) (t : T) :
    Parts site pushes targets (fun {α : Type} (x : Op α) =>
      (slicing slice I).Maintains (server T) t (Held t []) x) where
  query q hq := maintains_elsewhere (φ := fun c => c = .db q) hslice (calls_query rfl)
    fun c hc => hc ▸ ⟨Call.within_of_unchanging (DbCall.not_changes_of_unlocked hq) [],
      DbCall.not_changes_of_unlocked hq k⟩
  arrive feed k' := maintains_elsewhere (φ := fun c => c = .arrive feed k') hslice (calls_call rfl)
    fun c hc => hc ▸ ⟨fun k hk => hk.elim, id⟩
  purge feed k' := maintains_section hslice (calls_purgeLocked feed k') fun hk => hk ▸ h.purge feed
  planned feed k' := maintains_section hslice (calls_purgePlannedLocked feed k')
    fun hk => hk ▸ h.planned feed
  sweep k' := maintains_section hslice (calls_sweepLocked k') fun hk => hk ▸ h.sweep
  index feed bytes options incoming hpush haccept := maintains_section hslice
    ((calls_indexLocked site feed incoming options).mono fun _ => Call.within_of_indexes)
    (h.index feed bytes options incoming hpush haccept)
  approve feed v shown := maintains_locked (slicing_ignoresLocks hslice)
    (maintains_approval h (calls_approveLocked site feed v shown))
  approveMany feed id versions shown := maintains_allLocked (slicing_ignoresLocks hslice)
    (maintains_approval h (by simpa using calls_approveManyLocked site feed id versions shown))
  transfer source target k' mode htarget := maintains_section hslice
    (calls_transferLocked source k' target mode) fun hk => hk ▸ h.transfer source target mode htarget

variable {ops : T → Operation} {s : Store T} {c : Config T Call Call.Answer Bool (Store T)}
variable {allow : Machine.Allowed T Call Call.Answer Bool (Store T)}

theorem slice_of_reaches (hslice : GuardedBy k slice)
    (hkeep : ∀ t, SectionsKeep site (ops t).indexes (ops t).transfersTo k slice I)
    (hstart : I (slice s)) (h : (server T).Reaches allow (serving site s ops) c) :
    I (slice c.world.state) := by
  have start : (slicing slice I).Keeps (server T) (serving site s ops) := by
    refine ⟨hstart, fun t => Protocol.Safe.bind ?_⟩
    have maintained := ((hkeep t).parts hslice t).run (Protocol.closed_maintains _ _ t _) (ops t)
      (fun _ _ _ h => h) fun _ h => h
    exact (maintained _ (by simp [Held])).mono fun _ _ _ => trivial
  exact (start.reaches ((disciplined h).mono fun _ _ _ ha => ha.2)).1

end Runs

end YaNuget
