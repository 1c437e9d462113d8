import YaNuget.Upstreams.Tracker

/-!
# One fetch of a package at a time

Requests look at the tracker, take turns at it and end their fetches in any
order. A guard is held for exactly the packages whose fetch is running, and
each of them is remembered for as long.
-/
namespace YaNuget.Upstreams

/-- The tracker among the requests that use it. -/
structure Fetching where
  tracker : Tracker
  /-- Numbers taken by requests that have not taken the lock yet. -/
  drawn : List ℕ
  guards : List FetchGuard

namespace Fetching

/-- A tracker before its first request. -/
def initial : Fetching := ⟨⟨Table.empty, 0⟩, [], []⟩

variable (s : Fetching)

/-- What is remembered of a package. -/
def state (key : FetchKey) : Option IdState := s.tracker.ids.row key

/-- How many packages are remembered. -/
def len : ℕ := s.tracker.ids.len

def running (key : FetchKey) : Option ℕ := (s.state key).bind (·.inflight)

def draw : Fetching :=
  { s with tracker := s.tracker.fetchAdd.1, drawn := s.tracker.fetchAdd.2 :: s.drawn }

section

variable (order : List FetchKey) (now : ℕ) (key : FetchKey) (refresh : ℕ)

/-- The mirror changes what it remembers of a package. -/
def look (f : Remembered → Remembered) : Fetching :=
  { s with
    tracker := (s.tracker.with order now key refresh fun state =>
      ({ state with toRemembered := f state.toRemembered }, ())).1 }

/-- A request takes the fetch of a package, or joins the one in progress. -/
def turn (fetch : ℕ) : Fetching :=
  let taken := s.tracker.turn order now key refresh fetch
  { tracker := taken.1
    drawn := s.drawn.erase fetch
    guards := match taken.2 with
      | .lead g => g :: s.guards
      | .wait _ => s.guards }

end

/-- A fetch ends, or its request is cancelled. -/
def drop (g : FetchGuard) : Fetching :=
  { s with tracker := s.tracker.dropGuard g, guards := s.guards.erase g }

/-- One step of any request, at any time and in any order of the map. -/
inductive Step (s : Fetching) : Fetching → Prop
  | draw : Step s s.draw
  | look (order : List FetchKey) (now : ℕ) (key : FetchKey) (refresh : ℕ)
      (f : Remembered → Remembered) : Enumerates order s.tracker.ids →
      Step s (s.look order now key refresh f)
  | turn (order : List FetchKey) (now : ℕ) (key : FetchKey) (refresh fetch : ℕ) :
      Enumerates order s.tracker.ids → fetch ∈ s.drawn →
      Step s (s.turn order now key refresh fetch)
  | drop (g : FetchGuard) : g ∈ s.guards → Step s (s.drop g)

/-- Any requests, in any order. -/
def Reachable (s : Fetching) : Prop := Relation.ReflTransGen Step initial s

/-- A guard is held for each fetch in progress, and for one fetch of a package at most. -/
structure Guarded : Prop where
  once : (s.guards.map (·.key)).Nodup
  running_iff : ∀ key fetch, s.running key = some fetch ↔ ⟨key, fetch⟩ ∈ s.guards

/-- No package whose fetch is in progress is forgotten. -/
def Keeps (s s' : Fetching) : Prop :=
  ∀ key, (s.running key).isSome → (s'.state key).isSome

/-- A package newly remembered fits, unless all others are being fetched; nothing else makes the
tracker grow. -/
def Fits (s s' : Fetching) : Prop :=
  (∀ key, s.state key = none → (s'.state key).isSome →
    s'.len ≤ maxTracked ∨ ∀ other, other ≠ key → (s'.state other).isSome →
      (s'.running other).isSome) ∧
  ((∀ key, (s'.state key).isSome → (s.state key).isSome) → s'.len ≤ s.len)

end Fetching

section Room

variable {t : Tracker} {order : List FetchKey} {now refresh : ℕ} {key k : FetchKey} {s : IdState}

theorem row_of_room (h : (t.room order now key refresh).row k = some s) :
    t.ids.row k = some s := by
  unfold Tracker.room at h
  split at h
  · exact row_of_evict h
  · exact h

theorem room_keeps (hs : t.ids.row k = some s) (hbusy : s.inflight.isSome) :
    (t.room order now key refresh).row k = some s := by
  unfold Tracker.room
  split
  · exact evict_keeps hs hbusy
  · exact hs

theorem room_of_unknown (now refresh : ℕ) (horder : Enumerates order t.ids)
    (h : t.ids.row key = none) :
    (t.room order now key refresh).len < maxTracked ∨
      ∀ k s, (t.room order now key refresh).row k = some s → s.inflight.isSome := by
  unfold Tracker.room
  split
  · exact evict_room horder
  next hfits =>
    left
    simpa [h] using hfits

/-- The fetches in progress are the same after room was made. -/
theorem running_room (t : Tracker) (order : List FetchKey) (now : ℕ) (key : FetchKey) (refresh : ℕ)
    (k : FetchKey) : ((t.room order now key refresh).row k).bind (·.inflight) =
    (t.ids.row k).bind (·.inflight) := by
  cases hs : t.ids.row k with
  | none =>
    cases hroom : (t.room order now key refresh).row k with
    | none => rfl
    | some s => rw [row_of_room hroom] at hs; cases hs
  | some s =>
    cases hbusy : s.inflight with
    | some n => simp [room_keeps hs (by simp [hbusy]), hbusy]
    | none =>
      cases hroom : (t.room order now key refresh).row k with
      | none => simp [hbusy]
      | some s' =>
        rw [row_of_room hroom] at hs
        cases hs
        rfl

/-- The new entry stands beside those that stay. -/
theorem with_fits {α : Type} (horder : Enumerates order t.ids) (f : IdState → IdState × α) :
    let t' := (t.with order now key refresh f).1
    (∀ k, t.ids.row k = none → (t'.ids.row k).isSome →
      t'.ids.len ≤ maxTracked ∨ ∀ other, other ≠ k → (t'.ids.row other).isSome →
        ((t'.ids.row other).bind (·.inflight)).isSome) ∧
    ((∀ k, (t'.ids.row k).isSome → (t.ids.row k).isSome) → t'.ids.len ≤ t.ids.len) := by
  dsimp only [Tracker.with]
  refine ⟨fun k hnone hsome => ?_, fun hknown => Table.len_le hknown⟩
  obtain rfl : k = key := by
    by_contra hk
    rw [Table.row_insert, if_neg hk] at hsome
    obtain ⟨s, hs⟩ := Option.isSome_iff_exists.mp hsome
    rw [row_of_room hs] at hnone
    cases hnone
  rcases room_of_unknown now refresh horder hnone with hlen | hbusy
  · left
    exact (Table.len_insert_le _ _ _).trans hlen
  · right
    intro other hother hsome
    rw [Table.row_insert, if_neg hother] at hsome ⊢
    obtain ⟨s, hs⟩ := Option.isSome_iff_exists.mp hsome
    rw [hs]
    exact hbusy other s hs

/-- What the lookup of a package changes of the fetches in progress. -/
theorem running_with {α : Type} (t : Tracker) (order : List FetchKey) (now : ℕ) (key : FetchKey)
    (refresh : ℕ) (f : IdState → IdState × α) :
    ∃ s : IdState, s.inflight = (t.ids.row key).bind (·.inflight) ∧
      (t.with order now key refresh f).2 = (f s).2 ∧
      ∀ k, ((t.with order now key refresh f).1.ids.row k).bind (·.inflight) =
        if k = key then (f s).1.inflight else (t.ids.row k).bind (·.inflight) := by
  have hroom : ((((t.room order now key refresh).row key).getD {}).inflight) =
      (t.ids.row key).bind (·.inflight) := by
    rw [← running_room t order now key refresh]
    cases (t.room order now key refresh).row key <;> rfl
  refine ⟨{ (((t.room order now key refresh).row key).getD {}) with touched := some now }, hroom,
    rfl, fun k => ?_⟩
  dsimp only [Tracker.with]
  rw [Table.row_insert]
  by_cases hk : k = key
  · rw [if_pos hk, if_pos hk]
    rfl
  · rw [if_neg hk, if_neg hk, running_room]

end Room

namespace Fetching

variable {s s' : Fetching}

theorem guarded_initial : Guarded initial where
  once := by simp [initial]
  running_iff key fetch := by simp [initial, running, state]

/-- A held guard is the only one for its package. -/
theorem Guarded.eq (h : s.Guarded) {key : FetchKey} {m n : ℕ} (hm : ⟨key, m⟩ ∈ s.guards)
    (hn : ⟨key, n⟩ ∈ s.guards) : m = n := by
  have hm := (h.running_iff key m).mpr hm
  have hn := (h.running_iff key n).mpr hn
  rw [hm] at hn
  exact Option.some.inj hn

section Look

variable (order : List FetchKey) (now : ℕ) (key : FetchKey) (refresh : ℕ)

theorem running_look (f : Remembered → Remembered) (k : FetchKey) :
    (s.look order now key refresh f).running k = s.running k := by
  obtain ⟨state, hstate, -, hrunning⟩ := running_with s.tracker order now key refresh
    fun state =>
      ({ state with toRemembered := f state.toRemembered }, ())
  have hk := hrunning k
  dsimp only [running, Fetching.state, look]
  rw [hk]
  split
  next h => rw [h, ← hstate]
  · rfl

theorem Guarded.look (h : s.Guarded) (f : Remembered → Remembered) :
    (s.look order now key refresh f).Guarded where
  once := h.once
  running_iff k fetch := by
    rw [running_look]
    exact h.running_iff k fetch

variable (fetch : ℕ)

/-- A fetch in progress is joined; with none in progress a request leads its own. -/
theorem turn_spec :
    (∃ n, s.running key = some n ∧ (s.tracker.turn order now key refresh fetch).2 = .wait n ∧
      ∀ k, (s.turn order now key refresh fetch).running k = s.running k) ∨
    (s.running key = none ∧
      (s.tracker.turn order now key refresh fetch).2 = .lead ⟨key, fetch⟩ ∧
      ∀ k, (s.turn order now key refresh fetch).running k =
        if k = key then some fetch else s.running k) := by
  obtain ⟨state, hstate, hturn, hrunning⟩ := running_with s.tracker order now key
    refresh (IdState.takeTurn key fetch)
  cases hbusy : state.inflight with
  | some n =>
    left
    rw [hbusy] at hstate
    simp only [IdState.takeTurn, hbusy] at hturn hrunning
    refine ⟨n, hstate.symm, hturn, fun k => ?_⟩
    have hk := hrunning k
    dsimp only [running, Fetching.state, turn, Tracker.turn]
    rw [hk]
    split
    next h => rw [h, ← hstate]
    · rfl
  | none =>
    right
    rw [hbusy] at hstate
    simp only [IdState.takeTurn, hbusy] at hturn hrunning
    exact ⟨hstate.symm, hturn, hrunning⟩

theorem Guarded.turn (h : s.Guarded) : (s.turn order now key refresh fetch).Guarded := by
  rcases s.turn_spec order now key refresh fetch with
    ⟨n, -, hwait, hrunning⟩ | ⟨hfree, hlead, hrunning⟩
  · have hguards : (s.turn order now key refresh fetch).guards = s.guards := by
      simp only [Fetching.turn, hwait]
    constructor
    · rw [hguards]
      exact h.once
    · intro k m
      rw [hrunning, hguards]
      exact h.running_iff k m
  · have hguards : (s.turn order now key refresh fetch).guards = ⟨key, fetch⟩ :: s.guards := by
      simp only [Fetching.turn, hlead]
    have hnone : ∀ m, ⟨key, m⟩ ∉ s.guards := by
      intro m hm
      rw [← h.running_iff, hfree] at hm
      cases hm
    constructor
    · rw [hguards, List.map_cons, List.nodup_cons]
      refine ⟨fun hmem => ?_, h.once⟩
      obtain ⟨⟨k, m⟩, hg, rfl⟩ := List.mem_map.mp hmem
      exact hnone m hg
    · intro k m
      rw [hrunning, hguards, List.mem_cons]
      by_cases hk : k = key
      · subst hk
        simp [hnone, eq_comm]
      · rw [if_neg hk, h.running_iff]
        simp [hk]

end Look

section Drop

variable {g : FetchGuard}

theorem Guarded.running_drop (h : s.Guarded) (hg : g ∈ s.guards) (k : FetchKey) :
    (s.drop g).running k = if k = g.key then none else s.running k := by
  have hrunning : s.running g.key = some g.fetch := (h.running_iff _ _).mpr hg
  dsimp only [running, state, drop, Tracker.dropGuard] at hrunning ⊢
  rw [Table.row_modify]
  by_cases hk : k = g.key
  · obtain ⟨state, hrow, hbusy⟩ := Option.bind_eq_some_iff.mp hrunning
    simp [hk, hrow, hbusy]
  · cases s.tracker.ids.row k <;> simp [hk]

theorem Guarded.drop (h : s.Guarded) (hg : g ∈ s.guards) : (s.drop g).Guarded where
  once := h.once.sublist (List.erase_sublist.map _)
  running_iff k m := by
    have hnodup : s.guards.Nodup := h.once.of_map _
    rw [h.running_drop hg]
    change _ ↔ _ ∈ s.guards.erase g
    rw [hnodup.mem_erase_iff]
    by_cases hk : k = g.key
    · subst hk
      simp only [if_true, reduceCtorEq, false_iff, not_and, ne_eq]
      intro hne hm
      exact hne (by rw [h.eq hm hg])
    · rw [if_neg hk, h.running_iff]
      have hne : (⟨k, m⟩ : FetchGuard) ≠ g := fun heq => hk (heq ▸ rfl)
      simp [hne]

theorem state_drop (k : FetchKey) : ((s.drop g).state k).isSome = (s.state k).isSome := by
  dsimp only [state, Fetching.drop, Tracker.dropGuard]
  rw [Table.row_modify]
  cases s.tracker.ids.row k with
  | none => rfl
  | some state => by_cases hg : k = g.key ∧ state.inflight = some g.fetch <;> simp [hg]

end Drop

section Steps

theorem Step.guarded (h : Step s s') (hguarded : s.Guarded) : s'.Guarded := by
  cases h with
  | draw => exact ⟨hguarded.once, hguarded.running_iff⟩
  | look order now key refresh f _ => exact hguarded.look order now key refresh f
  | turn order now key refresh fetch _ _ => exact hguarded.turn order now key refresh fetch
  | drop g hg => exact hguarded.drop hg

theorem Reachable.guarded (h : Reachable s) : s.Guarded := by
  induction h with
  | refl => exact guarded_initial
  | tail _ hstep ih => exact hstep.guarded ih

theorem isSome_of_running {key : FetchKey} (h : (s.running key).isSome) :
    (s.state key).isSome := by
  unfold running at h
  cases hstate : s.state key <;> simp_all

theorem Step.keeps (h : Step s s') : Keeps s s' := by
  intro key hrunning
  cases h with
  | draw => exact isSome_of_running hrunning
  | look order now k refresh f _ =>
    apply isSome_of_running
    rwa [running_look]
  | turn order now k refresh fetch _ _ =>
    apply isSome_of_running
    rcases s.turn_spec order now k refresh fetch with ⟨_, -, -, hsame⟩ | ⟨-, -, hsame⟩
    · rwa [hsame]
    · rw [hsame]
      split
      · rfl
      · exact hrunning
  | drop g hg =>
    rw [state_drop]
    exact isSome_of_running hrunning

theorem Step.fits (h : Step s s') : Fits s s' := by
  have hsame : (∀ key, (s'.state key).isSome = (s.state key).isSome) → Fits s s' := by
    intro hkeys
    refine ⟨fun key hnone hsome => ?_, fun _ => Table.len_le fun key hsome => ?_⟩
    · rw [hkeys, hnone] at hsome
      cases hsome
    · have hkey := hkeys key
      unfold state at hkey
      rwa [← hkey]
  cases h with
  | draw => exact hsame fun _ => rfl
  | look order now key refresh f horder =>
    exact with_fits horder fun state => ({ state with toRemembered := f state.toRemembered }, ())
  | turn order now key refresh fetch horder _ => exact with_fits horder (IdState.takeTurn key fetch)
  | drop g hg => exact hsame state_drop

end Steps

/-- At any time a guard is held for each fetch in progress and for no package twice; no step
forgets a package whose fetch is in progress, and each leaves no more packages remembered than fit,
unless they are all being fetched. -/
theorem single_flight (s : Fetching) (h : Reachable s) :
    s.Guarded ∧ ∀ s', Step s s' → Keeps s s' ∧ Fits s s' := by
  refine ⟨h.guarded, fun s' hstep => ?_⟩
  exact ⟨hstep.keeps, hstep.fits⟩

/-- A package that nobody has asked for yet. -/
def sampleKey (i : ℕ) : FetchKey := ("default".toList, ("pkg." ++ Nat.repr i).toList)

theorem sampleKey_injective : Function.Injective sampleKey := by
  intro i j h
  apply Text.decimal_injective
  simpa [sampleKey, Text.decimal] using h

def sampleKeys (n : ℕ) : List FetchKey := (List.range n).map sampleKey

/-- Fetches of different packages are taken, one after the other. -/
def filled : ℕ → Fetching
  | 0 => initial
  | n + 1 => (filled n).draw.turn (sampleKeys n) 0 (sampleKey n) 0 n

structure Filled (n : ℕ) : Prop where
  reachable : Reachable (filled n)
  nextFetch : (filled n).tracker.nextFetch = n
  len : (filled n).len = n
  known : ∀ k, ((filled n).state k).isSome → k ∈ sampleKeys n
  fetched : ∀ i < n, (filled n).state (sampleKey i) =
    some { inflight := some i, touched := some 0 }

namespace Filled

variable {n : ℕ}

theorem enumerates (h : Filled n) : Enumerates (sampleKeys n) (filled n).tracker.ids where
  nodup := List.nodup_range.map sampleKey_injective
  all := h.known

theorem state_eq_none (h : Filled n) {i : ℕ} (hi : n ≤ i) : (filled n).state (sampleKey i) = none := by
  by_contra hknown
  obtain ⟨j, hj, hkey⟩ := List.mem_map.mp (h.known _ (Option.isSome_iff_ne_none.mpr hknown))
  have := sampleKey_injective hkey
  have := List.mem_range.mp hj
  omega

theorem busy (h : Filled n) (key : FetchKey) (state : IdState)
    (hstate : (filled n).state key = some state) : state.inflight.isSome := by
  obtain ⟨i, hi, rfl⟩ := List.mem_map.mp (h.known key (by simp [hstate]))
  rw [h.fetched i (List.mem_range.mp hi)] at hstate
  cases hstate
  rfl

end Filled

theorem filled_spec (n : ℕ) (hn : n ≤ maxTracked) : Filled n := by
  induction n with
  | zero =>
    refine ⟨.refl, rfl, rfl, fun k hk => ?_, fun i hi => absurd hi (Nat.not_lt_zero i)⟩
    simp [filled, initial, Fetching.state] at hk
  | succ n ih =>
    have h := ih (Nat.le_of_succ_le hn)
    have hfull : ¬ maxTracked ≤ (filled n).draw.tracker.ids.len := by
      change ¬ maxTracked ≤ (filled n).len
      rw [h.len]
      omega
    have hroom : (filled n).draw.tracker.room (sampleKeys n) 0 (sampleKey n) 0 =
        (filled n).tracker.ids := by
      unfold Tracker.room
      rw [if_neg (by simp [hfull])]
      rfl
    have hrow : (filled n).tracker.ids.row (sampleKey n) = none := h.state_eq_none le_rfl
    have hstate : ∀ k, (filled (n + 1)).state k =
        if k = sampleKey n then some { inflight := some n, touched := some 0 }
        else (filled n).state k := by
      intro k
      simp only [filled, state, turn, Tracker.turn, Tracker.with, hroom, Table.row_insert, hrow]
      rfl
    constructor
    case reachable =>
      refine (h.reachable.tail .draw).tail (.turn _ 0 _ 0 n h.enumerates ?_)
      exact List.mem_cons.mpr (Or.inl h.nextFetch.symm)
    case nextFetch =>
      change ((filled n).tracker.nextFetch + 1) % 2 ^ 64 = n + 1
      rw [h.nextFetch]
      unfold maxTracked at hn
      omega
    case len =>
      simp only [filled, Fetching.len, turn, Tracker.turn, Tracker.with, hroom]
      rw [Table.len_insert_of_none _ _ hrow]
      exact congrArg (· + 1) h.len
    case known =>
      intro k hk
      rw [hstate] at hk
      rw [sampleKeys, List.range_succ, List.map_append, List.mem_append]
      split_ifs at hk with hkey
      · exact Or.inr (List.mem_singleton.mpr hkey)
      · exact Or.inl (h.known k hk)
    case fetched =>
      intro i hi
      rw [hstate]
      rcases Nat.lt_succ_iff_lt_or_eq.mp hi with hlt | rfl
      · have hne : sampleKey i ≠ sampleKey n := fun hkey => hlt.ne (sampleKey_injective hkey)
        rw [if_neg hne, h.fetched i hlt]
      · rw [if_pos rfl]

theorem turn_of_running {order : List FetchKey} {now refresh fetch n : ℕ} {key : FetchKey}
    {state : IdState} (hstate : s.state key = some state) (hbusy : state.inflight = some n) :
    (s.turn order now key refresh fetch).guards = s.guards ∧
      ∀ k, (s.turn order now key refresh fetch).state k =
        if k = key then some { state with touched := some now } else s.state k := by
  have hrow : s.tracker.ids.row key = some state := hstate
  have hroom : s.tracker.room order now key refresh = s.tracker.ids := by
    unfold Tracker.room
    rw [if_neg (by simp [hrow])]
  constructor
  · simp [turn, Tracker.turn, Tracker.with, hroom, hrow, IdState.takeTurn, hbusy]
  · intro k
    simp [Fetching.state, turn, Tracker.turn, Tracker.with, hroom, hrow, IdState.takeTurn, hbusy]

/-- An idle package is forgotten when another one is asked for and there is no room. -/
theorem turn_forgets {order : List FetchKey} {now refresh fetch : ℕ} {key k : FetchKey}
    {state : IdState} (hfull : maxTracked ≤ s.len) (hnew : s.state key = none)
    (hstate : s.state k = some state) (hidle : state.isIdle now refresh = true) :
    (s.turn order now key refresh fetch).state k = none := by
  have hne : k ≠ key := by
    rintro rfl
    rw [hstate] at hnew
    cases hnew
  have hrow : s.tracker.ids.row k = some state := hstate
  have hroom : s.tracker.room order now key refresh =
      Tracker.evict s.tracker.ids order now refresh := by
    unfold Tracker.room
    have hunknown : s.tracker.ids.row key = none := hnew
    have hlen : maxTracked ≤ s.tracker.ids.len := hfull
    rw [if_pos (by simp [hunknown, hlen])]
  simp only [Fetching.state, turn, Tracker.turn, Tracker.with, Table.row_insert, if_neg hne, hroom]
  exact evict_idle hrow hidle

/-- The first of the fetches has ended, and a second request has asked for the second package. -/
def joined (n : ℕ) : Fetching :=
  ((filled n).drop ⟨sampleKey 0, 0⟩).draw.turn (sampleKeys n) 0 (sampleKey 1) 0 n

/-- Then a request asks for one more package. -/
def asked (n : ℕ) : Fetching :=
  (joined n).draw.turn (sampleKeys n) 0 (sampleKey n) 0 (n + 1)

namespace Filled

variable {n : ℕ}

theorem mem_guards (h : Filled n) {i : ℕ} (hi : i < n) : ⟨sampleKey i, i⟩ ∈ (filled n).guards := by
  rw [← h.reachable.guarded.running_iff, running, h.fetched i hi]
  rfl

variable (h : Filled n) (hn : 1 < n)
include h hn

/-- What the second package is known by once the fetch of the first one has ended. -/
theorem state_dropped : ((filled n).drop ⟨sampleKey 0, 0⟩).draw.state (sampleKey 1) =
    some { inflight := some 1, touched := some 0 } := by
  have hne : sampleKey 1 ≠ sampleKey 0 := fun hkey => absurd (sampleKey_injective hkey) (by decide)
  have hstate : (filled n).tracker.ids.row (sampleKey 1) = _ := h.fetched 1 hn
  simp [Fetching.state, draw, Tracker.fetchAdd, drop, Tracker.dropGuard, hstate, hne]

theorem guards_joined : (joined n).guards = ((filled n).drop ⟨sampleKey 0, 0⟩).guards :=
  (turn_of_running (h.state_dropped hn) rfl).1

theorem state_joined (k : FetchKey) : (joined n).state k =
    if k = sampleKey 1 then some { inflight := some 1, touched := some 0 }
    else ((filled n).drop ⟨sampleKey 0, 0⟩).state k :=
  (turn_of_running (h.state_dropped hn) rfl).2 k

theorem isSome_joined (k : FetchKey) :
    ((joined n).state k).isSome = ((filled n).state k).isSome := by
  have hdrop : (((filled n).drop ⟨sampleKey 0, 0⟩).state k).isSome = ((filled n).state k).isSome :=
    state_drop k
  rw [← hdrop, h.state_joined hn]
  split_ifs with hk
  · subst hk
    exact congrArg Option.isSome (h.state_dropped hn).symm
  · rfl

theorem enumerates_joined : Enumerates (sampleKeys n) (joined n).tracker.ids where
  nodup := h.enumerates.nodup
  all k hk := h.known k ((h.isSome_joined hn k).symm.trans hk)

theorem reachable_joined : Reachable (joined n).draw := by
  have hdrop := h.reachable.tail (.drop _ (h.mem_guards (Nat.zero_lt_of_lt hn)))
  have horder : Enumerates (sampleKeys n) ((filled n).drop ⟨sampleKey 0, 0⟩).draw.tracker.ids :=
    ⟨h.enumerates.nodup, fun k hk => h.known k ((state_drop k).symm.trans hk)⟩
  refine ((hdrop.tail .draw).tail (.turn _ 0 _ 0 n horder ?_)).tail .draw
  exact List.mem_cons.mpr (Or.inl h.nextFetch.symm)

end Filled

section Full

variable {n : ℕ} (h : Filled n) (hn : n = maxTracked)
include h hn

theorem step_asked : Step (joined n).draw (asked n) := by
  have h1 : 1 < n := by rw [hn]; decide
  refine .turn _ 0 _ 0 (n + 1) (h.enumerates_joined h1) (List.mem_cons.mpr (Or.inl ?_))
  change n + 1 = ((filled n).tracker.nextFetch + 1) % 2 ^ 64
  rw [h.nextFetch, hn]
  rfl

theorem state_asked : (asked n).state (sampleKey 0) = none := by
  have h1 : 1 < n := by rw [hn]; decide
  have hidle : IdState.isIdle { touched := some 0 } 0 0 = true := rfl
  refine turn_forgets ?hfull ?hnew ?hstate hidle
  case hfull =>
    have hlen : (filled n).len ≤ (joined n).draw.len :=
      Table.len_le fun k hk => (h.isSome_joined h1 k).trans hk
    exact hn.ge.trans (h.len.ge.trans hlen)
  case hnew =>
    rw [← Option.not_isSome_iff_eq_none]
    intro hknown
    have := (h.isSome_joined h1 _).symm.trans hknown
    rw [h.state_eq_none le_rfl] at this
    cases this
  case hstate =>
    have hne : sampleKey 0 ≠ sampleKey 1 := fun hkey =>
      absurd (sampleKey_injective hkey) (by decide)
    have hfirst : (filled n).tracker.ids.row (sampleKey 0) = _ := h.fetched 0 (by omega)
    have hjoined := h.state_joined h1 (sampleKey 0)
    rw [if_neg hne] at hjoined
    refine hjoined.trans ?_
    simp [Fetching.state, drop, Tracker.dropGuard, hfirst]

end Full

/-- The tracker is full. A request for a package that is being fetched takes no guard of its own,
and a request for another package makes the tracker forget the one whose fetch has ended. -/
theorem single_flight_sample :
    (joined maxTracked).guards = ((filled maxTracked).drop ⟨sampleKey 0, 0⟩).guards ∧
      (asked maxTracked).state (sampleKey 0) = none ∧
      (joined maxTracked).draw.Guarded ∧ Keeps (joined maxTracked).draw (asked maxTracked) ∧
      Fits (joined maxTracked).draw (asked maxTracked) := by
  have hfilled := filled_spec maxTracked le_rfl
  have hpair : 1 < maxTracked := by decide
  have h := single_flight _ (hfilled.reachable_joined hpair)
  exact ⟨hfilled.guards_joined hpair, state_asked hfilled rfl, h.1,
    h.2 _ (step_asked hfilled rfl)⟩

/-- The tracker holds no more packages than it may while one of them is idle. -/
def BoundedWhileIdle (s : Fetching) : Prop :=
  ∀ key state now refresh, s.state key = some state → state.isIdle now refresh →
    s.len ≤ maxTracked

/-- Ten thousand packages are being fetched when another is looked at: its idle entry is one too
many. -/
theorem idle_past_maximum : ¬ ∀ s, Reachable s →
    s.Guarded ∧ (∀ s', Step s s' → Keeps s s') ∧ s.BoundedWhileIdle := by
  intro hclaim
  obtain ⟨n, hn⟩ : ∃ n, n = maxTracked := ⟨_, rfl⟩
  have h := filled_spec n hn.le
  have hreach := h.reachable.tail (.look _ 0 (sampleKey n) 0 id h.enumerates)
  generalize hroom : (filled n).tracker.room (sampleKeys n) 0 (sampleKey n) 0 = ids
  have hrow : ids.row (sampleKey n) = none := by
    cases hknown : ids.row (sampleKey n) with
    | none => rfl
    | some state =>
      rw [← hroom] at hknown
      have hnew : (filled n).tracker.ids.row (sampleKey n) = none := h.state_eq_none le_rfl
      rw [row_of_room hknown] at hnew
      cases hnew
  have hids : maxTracked ≤ ids.len := by
    refine (hn.ge.trans h.len.ge).trans (Table.len_le fun key hkey => ?_)
    obtain ⟨state, hstate⟩ := Option.isSome_iff_exists.mp hkey
    rw [← hroom, room_keeps hstate (h.busy key state hstate)]
    rfl
  have hbound := (hclaim _ hreach).2.2 (sampleKey n) { touched := some 0 } 0 0
  simp only [state, len, look, Tracker.with, hroom, Table.row_insert, hrow,
    Table.len_insert_of_none _ _ hrow] at hbound
  have := hbound rfl rfl
  omega

end Fetching

end YaNuget.Upstreams
