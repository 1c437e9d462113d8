import Mathlib.Data.Finset.Card
import Mathlib.Data.Finset.Image

/-!
# Tables with a primary key

A table has finitely many rows, at most one under each key. Its operations are
those of a store queried by key: an upsert, an update or delete of the rows
that satisfy a condition, a renaming of keys, and a count.
-/
namespace YaNuget

/-- The rows of a table, with the finite set of keys that have one. -/
structure Table (K V : Type) where
  row : K → Option V
  keys : Finset K
  mem_keys : ∀ k, k ∈ keys ↔ (row k).isSome

namespace Table

variable {K V : Type}

def empty : Table K V := ⟨fun _ => none, ∅, by simp⟩

@[simp] theorem row_empty (k : K) : (empty : Table K V).row k = none := rfl

section Count

variable (T : Table K V)

theorem row_of_not_mem {k : K} (h : k ∉ T.keys) : T.row k = none := by
  rw [T.mem_keys] at h
  simpa using h

/-- `SELECT COUNT(*)` of the rows that satisfy `p`. -/
def count (p : K → V → Bool) : ℕ := (T.keys.filter fun k => (T.row k).any (p k)).card

theorem count_eq_zero (p : K → V → Bool) :
    T.count p = 0 ↔ ∀ k v, T.row k = some v → p k v = false := by
  rw [count, Finset.card_eq_zero, Finset.filter_eq_empty_iff]
  constructor
  · intro h k v hv
    have hk : k ∈ T.keys := (T.mem_keys k).mpr (by simp [hv])
    simpa [hv] using h hk
  · intro h k _
    cases hv : T.row k with
    | none => simp
    | some v => simpa using h k v hv

theorem eq_of_count_le_one {p : K → V → Bool} (h : T.count p ≤ 1) {k k' : K} {v v' : V}
    (hv : T.row k = some v) (hp : p k v = true) (hv' : T.row k' = some v')
    (hp' : p k' v' = true) : k = k' := by
  rw [count, Finset.card_le_one] at h
  apply h
  · simp [T.mem_keys, hv, hp]
  · simp [T.mem_keys, hv', hp']

/-- How many rows there are. -/
def len : ℕ := T.keys.card

variable {T} in
theorem len_le {T' : Table K V} (h : ∀ k, (T.row k).isSome → (T'.row k).isSome) :
    T.len ≤ T'.len := by
  apply Finset.card_le_card
  intro k hk
  rw [mem_keys] at hk ⊢
  exact h k hk

end Count

section Update

variable [DecidableEq K]

def ofKeys (keys : Finset K) (f : K → Option V) : Table K V where
  row k := if k ∈ keys then f k else none
  keys := keys.filter fun k => (f k).isSome
  mem_keys k := by by_cases h : k ∈ keys <;> simp [h]

@[simp] theorem row_ofKeys (keys : Finset K) (f : K → Option V) (k : K) :
    (ofKeys keys f).row k = if k ∈ keys then f k else none := rfl

variable (T : Table K V)

def insert (k : K) (v : V) : Table K V :=
  ofKeys (Insert.insert k T.keys) fun k' => if k' = k then some v else T.row k'

/-- `UPDATE` or `DELETE`, row by row: a row mapped to `none` is deleted. -/
def modify (f : K → V → Option V) : Table K V :=
  ofKeys T.keys fun k => (T.row k).bind (f k)

/-- `DELETE` of the row under `k`. -/
def erase (k : K) : Table K V := T.modify fun k' v => if k' = k then none else some v

@[simp] theorem row_insert (k : K) (v : V) (k' : K) :
    (T.insert k v).row k' = if k' = k then some v else T.row k' := by
  by_cases h : k' = k
  · simp [insert, h]
  · by_cases hk : k' ∈ T.keys
    · simp [insert, h, hk]
    · simp [insert, h, hk, T.row_of_not_mem hk]

@[simp] theorem row_modify (f : K → V → Option V) (k : K) :
    (T.modify f).row k = (T.row k).bind (f k) := by
  by_cases hk : k ∈ T.keys
  · simp [modify, hk]
  · simp [modify, hk, T.row_of_not_mem hk]

@[simp] theorem row_erase (k k' : K) :
    (T.erase k).row k' = if k' = k then none else T.row k' := by
  by_cases h : k' = k
  · simp [erase, h]
  · simp [erase, h]

theorem len_insert_le (k : K) (v : V) : (T.insert k v).len ≤ T.len + 1 := by
  have hsub : (T.insert k v).keys ⊆ Insert.insert k T.keys := Finset.filter_subset _ _
  exact (Finset.card_le_card hsub).trans (Finset.card_insert_le _ _)

theorem len_insert_of_none {k : K} (v : V) (h : T.row k = none) :
    (T.insert k v).len = T.len + 1 := by
  have hkeys : (T.insert k v).keys = Insert.insert k T.keys := by
    ext k'
    by_cases hk : k' = k <;> simp [mem_keys, hk]
  have hk : k ∉ T.keys := by simp [mem_keys, h]
  rw [len, hkeys, Finset.card_insert_of_notMem hk, len]

@[simp] theorem row_foldl_erase (ks : List K) (k : K) :
    (ks.foldl erase T).row k = if k ∈ ks then none else T.row k := by
  induction ks generalizing T with
  | nil => simp
  | cons k' ks ih =>
    rw [List.foldl_cons, ih, row_erase]
    by_cases hk : k ∈ ks <;> by_cases hk' : k = k' <;> simp [hk, hk']

theorem len_foldl_erase {ks : List K} (hks : ks.Nodup) (hmem : ∀ k ∈ ks, (T.row k).isSome) :
    (ks.foldl erase T).len = T.len - ks.length := by
  have hkeys : (ks.foldl erase T).keys = T.keys \ ks.toFinset := by
    ext k
    by_cases hk : k ∈ ks <;> simp [mem_keys, hk]
  have hsub : ks.toFinset ⊆ T.keys := by
    intro k hk
    rw [mem_keys]
    exact hmem k (List.mem_toFinset.mp hk)
  rw [len, hkeys, Finset.card_sdiff_of_subset hsub, List.toFinset_card_of_nodup hks, len]

end Update

end Table

end YaNuget
