import Mathlib.Data.Option.Defs
import Mathlib.Logic.Relation
import YaNuget.Data.Sorting
import YaNuget.Data.Table
import YaNuget.Data.Text

/-!
# Fetches in progress

For each package of each feed the mirror remembers when it was listed, which
failures to back off from, and which fetch of it is running. A request leads
the fetch or waits for the one that runs. The packages remembered are bounded:
past a number of them those with nothing to remember are forgotten, then those
not touched for longest, and never one whose fetch is running.
-/
namespace YaNuget.Upstreams

/-- A feed and the id of a package in lower case. -/
abbrev FetchKey := Text × Text

/-- Failures in a row, and when asking again is allowed. -/
structure Backoff where
  failures : ℕ := 0
  notBefore : Option ℕ := none

namespace Backoff

def firstBackoff : ℕ := 30
def maxBackoff : ℕ := 30 * 60

def active (b : Backoff) (now : ℕ) : Bool := b.notBefore.any (now < ·)

def fail (b : Backoff) (now : ℕ) : Backoff :=
  let failures := min (b.failures + 1) (2 ^ 32 - 1)
  let factor := 2 ^ min (failures - 1) 10
  { failures, notBefore := some (now + min (firstBackoff * factor) maxBackoff) }

def succeed (_ : Backoff) : Backoff := {}

end Backoff

/-- What the rest of the mirror reads and writes of a package. -/
structure Remembered where
  listedAt : Option ℕ := none
  backoff : Backoff := {}
  badVersions : List (Text × ℕ) := []
  listing : Option (ℕ × List (Text × Bool)) := none

/-- What the mirror remembers of a package. -/
structure IdState extends Remembered where
  /-- The number of the fetch in progress. -/
  inflight : Option ℕ := none
  touched : Option ℕ := none

/-- Whether nothing about this package needs remembering any more. -/
def IdState.isIdle (s : IdState) (now refresh : ℕ) : Bool :=
  s.inflight.isNone && !s.backoff.active now && s.badVersions.all (fun v => v.2 ≤ now) &&
    s.listedAt.all fun listed => refresh ≤ now - listed

/-- Packages whose fetch state is remembered. -/
def maxTracked : ℕ := 10000

/-- Held while a request fetches a package. -/
structure FetchGuard where
  key : FetchKey
  fetch : ℕ
deriving DecidableEq

/-- Either this request fetches, or it waits for the one that already does. -/
inductive Turn where
  | lead (guard : FetchGuard)
  | wait (fetch : ℕ)

/-- Lead the fetch of a package, unless one is in progress. -/
def IdState.takeTurn (key : FetchKey) (fetch : ℕ) (state : IdState) : IdState × Turn :=
  match state.inflight with
  | some n => (state, .wait n)
  | none => ({ state with inflight := some fetch }, .lead ⟨key, fetch⟩)

structure Tracker where
  ids : Table FetchKey IdState
  nextFetch : ℕ

namespace Tracker

/-- The entries of a map, met in an order of its keys. -/
def entries (order : List FetchKey) (ids : Table FetchKey IdState) : List (FetchKey × IdState) :=
  order.filterMap fun k => (ids.row k).map (k, ·)

/-- The packages without a running fetch, those not touched for longest first. -/
def byAge (order : List FetchKey) (ids : Table FetchKey IdState) :
    List (FetchKey × Option ℕ) :=
  Sorting.sortBy (fun a b => compare a.2 b.2)
    (((entries order ids).filter fun e => e.2.inflight.isNone).map fun e => (e.1, e.2.touched))

/-- Make room for one more entry. -/
def evict (ids : Table FetchKey IdState) (order : List FetchKey) (now refresh : ℕ) :
    Table FetchKey IdState :=
  let ids := ids.modify fun _ s => if s.isIdle now refresh then none else some s
  if maxTracked ≤ ids.len then
    ((byAge order ids).take (ids.len + 1 - maxTracked * 3 / 4)).foldl
      (fun ids e => ids.erase e.1) ids
  else ids

variable (t : Tracker) (order : List FetchKey) (now : ℕ) (key : FetchKey) (refresh : ℕ)

/-- The entries that stay when a package is looked at. -/
def room : Table FetchKey IdState :=
  if (t.ids.row key).isNone && maxTracked ≤ t.ids.len then evict t.ids order now refresh
  else t.ids

/-- Look at the state of a package and change it, under the lock. -/
def «with» {α : Type} (f : IdState → IdState × α) : Tracker × α :=
  let ids := t.room order now key refresh
  let state := (ids.row key).getD {}
  let changed := f { state with touched := some now }
  ({ t with ids := ids.insert key changed.1 }, changed.2)

/-- The number of the next fetch, taken before the lock is. -/
def fetchAdd : Tracker × ℕ :=
  ({ t with nextFetch := (t.nextFetch + 1) % 2 ^ 64 }, t.nextFetch)

def turn (fetch : ℕ) : Tracker × Turn :=
  t.with order now key refresh (IdState.takeTurn key fetch)

/-- The fetch has ended, or its request was cancelled. -/
def dropGuard (g : FetchGuard) : Tracker :=
  { t with ids := t.ids.modify fun k state =>
      if k = g.key ∧ state.inflight = some g.fetch then some { state with inflight := none }
      else some state }

end Tracker

section Eviction

open Tracker

variable {order : List FetchKey} {ids : Table FetchKey IdState} {now refresh : ℕ}
  {k key : FetchKey} {s : IdState}

/-- `order` is an order in which a map can be met. -/
structure Enumerates (order : List FetchKey) (ids : Table FetchKey IdState) : Prop where
  nodup : order.Nodup
  all : ∀ k, (ids.row k).isSome → k ∈ order

theorem mem_entries : (k, s) ∈ entries order ids ↔ k ∈ order ∧ ids.row k = some s := by
  simp only [entries, List.mem_filterMap, Option.map_eq_some_iff, Prod.mk.injEq]
  constructor
  · rintro ⟨k', hk', s', hs', rfl, rfl⟩
    exact ⟨hk', hs'⟩
  · rintro ⟨hk, hs⟩
    exact ⟨k, hk, s, hs, rfl, rfl⟩

theorem mem_byAge {e : FetchKey × Option ℕ} (he : e ∈ byAge order ids) :
    ∃ s, ids.row e.1 = some s ∧ s.inflight = none := by
  simp only [byAge, Sorting.mem_sortBy, List.mem_map, List.mem_filter] at he
  obtain ⟨⟨k, s⟩, ⟨hentry, hfree⟩, rfl⟩ := he
  exact ⟨s, (mem_entries.mp hentry).2, by simpa using hfree⟩

theorem fst_mem_byAge (hall : ∀ k, (ids.row k).isSome → k ∈ order) (hs : ids.row k = some s)
    (hfree : s.inflight = none) : k ∈ (byAge order ids).map Prod.fst := by
  have hentry : (k, s) ∈ entries order ids := mem_entries.mpr ⟨hall k (by simp [hs]), hs⟩
  simp only [byAge, List.mem_map, Sorting.mem_sortBy, List.mem_filter]
  exact ⟨(k, s.touched), ⟨(k, s), ⟨hentry, by simp [hfree]⟩, rfl⟩, rfl⟩

theorem map_fst_entries : (entries order ids).map Prod.fst =
    order.filter fun k => (ids.row k).isSome := by
  induction order with
  | nil => rfl
  | cons k order ih =>
    unfold entries at ih ⊢
    cases hk : ids.row k <;> simp [hk, ih]

theorem nodup_byAge (horder : order.Nodup) : ((byAge order ids).map Prod.fst).Nodup := by
  have hperm := (@Sorting.perm_sortBy _ (fun a b => compare a.2 b.2)
    (((entries order ids).filter fun e => e.2.inflight.isNone).map
      fun e => (e.1, e.2.touched))).map Prod.fst
  rw [byAge, hperm.nodup_iff, List.map_map]
  have hentries : ((entries order ids).map Prod.fst).Nodup := by
    rw [map_fst_entries]
    exact horder.filter _
  exact hentries.sublist (List.filter_sublist.map _)

/-- The entries that are forgotten to make room for another. -/
def forgotten (order : List FetchKey) (ids : Table FetchKey IdState) : List FetchKey :=
  ((byAge order ids).take (ids.len + 1 - maxTracked * 3 / 4)).map Prod.fst

theorem evict_eq (now refresh : ℕ) : evict ids order now refresh =
    let busy := ids.modify fun _ s => if s.isIdle now refresh then none else some s
    if maxTracked ≤ busy.len then (forgotten order busy).foldl Table.erase busy else busy := by
  simp only [evict, forgotten, List.foldl_map]

theorem mem_forgotten (hk : k ∈ forgotten order ids) :
    ∃ s, ids.row k = some s ∧ s.inflight = none := by
  obtain ⟨e, he, rfl⟩ := List.mem_map.mp hk
  exact mem_byAge (List.mem_of_mem_take he)

theorem row_of_evict (h : (evict ids order now refresh).row k = some s) :
    ids.row k = some s := by
  rw [evict_eq] at h
  have hbusy : (ids.modify fun _ s => if s.isIdle now refresh then none else some s).row k =
      some s := by
    dsimp only at h
    split at h
    · rw [Table.row_foldl_erase] at h
      split at h
      · cases h
      · exact h
    · exact h
  rw [Table.row_modify, Option.bind_eq_some_iff] at hbusy
  obtain ⟨s', hs', hkept⟩ := hbusy
  split at hkept
  · cases hkept
  · rw [hs', hkept]

theorem evict_idle (hs : ids.row k = some s) (hidle : s.isIdle now refresh = true) :
    (evict ids order now refresh).row k = none := by
  have hgone : (ids.modify fun _ s => if s.isIdle now refresh then none else some s).row k =
      none := by
    simp [hs, hidle]
  rw [evict_eq]
  dsimp only
  split
  · rw [Table.row_foldl_erase, hgone, ite_self]
  · exact hgone

/-- A package whose fetch is running is not forgotten. -/
theorem evict_keeps (hs : ids.row k = some s) (hbusy : s.inflight.isSome) :
    (evict ids order now refresh).row k = some s := by
  have hidle : s.isIdle now refresh = false := by
    simp [IdState.isIdle, Option.isNone_eq_false_iff.mpr hbusy]
  have hrow : (ids.modify fun _ s => if s.isIdle now refresh then none else some s).row k =
      some s := by
    simp [hs, hidle]
  rw [evict_eq]
  dsimp only
  split
  · rw [Table.row_foldl_erase, if_neg, hrow]
    intro hk
    obtain ⟨s', hs', hfree⟩ := mem_forgotten hk
    rw [hrow] at hs'
    cases hs'
    simp [hfree] at hbusy
  · exact hrow

/-- Where no room was made, every package left is being fetched. -/
theorem evict_room (horder : Enumerates order ids) :
    (evict ids order now refresh).len < maxTracked ∨
      ∀ k s, (evict ids order now refresh).row k = some s → s.inflight.isSome := by
  rw [evict_eq]
  generalize hbusy : (ids.modify fun _ s => if s.isIdle now refresh then none else some s) = busy
  have hall : ∀ k, (busy.row k).isSome → k ∈ order := by
    intro k hk
    apply horder.all
    rw [← hbusy, Table.row_modify] at hk
    cases hrow : ids.row k <;> simp_all
  dsimp only
  split
  · have hnodup : (forgotten order busy).Nodup := by
      rw [forgotten, List.map_take]
      exact (nodup_byAge horder.nodup).sublist (List.take_sublist _ _)
    have hlen := busy.len_foldl_erase hnodup fun k hk => by
      obtain ⟨s, hs, -⟩ := mem_forgotten hk
      simp [hs]
    by_cases htake : (byAge order busy).length ≤ busy.len + 1 - maxTracked * 3 / 4
    · right
      intro k s hs
      rw [Table.row_foldl_erase] at hs
      split at hs
      · cases hs
      next hk =>
        by_contra hfree
        apply hk
        rw [forgotten, List.take_of_length_le htake]
        exact fst_mem_byAge hall hs (by simpa using hfree)
    · left
      have hcount : (forgotten order busy).length = busy.len + 1 - maxTracked * 3 / 4 := by
        simp only [forgotten, List.length_map, List.length_take]
        omega
      rw [hlen, hcount]
      unfold maxTracked at *
      omega
  · left
    omega

end Eviction

end YaNuget.Upstreams
