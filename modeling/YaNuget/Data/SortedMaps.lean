import Mathlib.Data.List.Nodup
import Mathlib.Order.Lattice

/-!
# Maps kept in the order of their keys

A map is the list of its entries, one for each key, with the keys in ascending
order.
-/
namespace YaNuget

structure SortedMap (K V : Type) [LinearOrder K] where
  entries : List (K × V)
  sorted : entries.Pairwise fun e f => e.1 < f.1

namespace SortedMap

variable {K V : Type} [LinearOrder K] {e : K × V} {k k' : K} {v v' : V}

def insertEntry (k : K) (v : V) : List (K × V) → List (K × V)
  | [] => [(k, v)]
  | e :: rest =>
    if k < e.1 then (k, v) :: e :: rest
    else if k = e.1 then (k, v) :: rest
    else e :: insertEntry k v rest

theorem mem_insertEntry {l : List (K × V)} (h : l.Pairwise fun e f => e.1 < f.1) :
    e ∈ insertEntry k v l ↔ e = (k, v) ∨ e ∈ l ∧ e.1 ≠ k := by
  induction l with
  | nil => simp [insertEntry]
  | cons a l ih =>
    obtain ⟨ha, hl⟩ := List.pairwise_cons.mp h
    unfold insertEntry
    split_ifs with hlt heq
    · have hne : ∀ f ∈ a :: l, f.1 ≠ k := by
        intro f hf
        rcases List.mem_cons.mp hf with rfl | hf
        · exact hlt.ne'
        · exact (hlt.trans (ha f hf)).ne'
      constructor
      · intro he
        exact (List.mem_cons.mp he).imp id fun he => ⟨he, hne e he⟩
      · rintro (rfl | ⟨he, -⟩)
        · exact List.mem_cons_self
        · exact List.mem_cons_of_mem _ he
    · subst heq
      have hne : ∀ f ∈ l, f.1 ≠ a.1 := fun f hf => (ha f hf).ne'
      constructor
      · intro he
        exact (List.mem_cons.mp he).imp id fun he => ⟨List.mem_cons_of_mem _ he, hne e he⟩
      · rintro (rfl | ⟨he, hkey⟩)
        · exact List.mem_cons_self
        · rcases List.mem_cons.mp he with rfl | he
          · exact absurd rfl hkey
          · exact List.mem_cons_of_mem _ he
    · rw [List.mem_cons, ih hl, List.mem_cons]
      have hne : a.1 ≠ k := Ne.symm heq
      constructor
      · rintro (rfl | rfl | ⟨he, hkey⟩)
        · exact Or.inr ⟨Or.inl rfl, hne⟩
        · exact Or.inl rfl
        · exact Or.inr ⟨Or.inr he, hkey⟩
      · rintro (rfl | ⟨rfl | he, hkey⟩)
        · exact Or.inr (Or.inl rfl)
        · exact Or.inl rfl
        · exact Or.inr (Or.inr ⟨he, hkey⟩)

theorem sorted_insertEntry {l : List (K × V)} (h : l.Pairwise fun e f => e.1 < f.1) :
    (insertEntry k v l).Pairwise fun e f => e.1 < f.1 := by
  induction l with
  | nil => simp [insertEntry]
  | cons a l ih =>
    obtain ⟨ha, hl⟩ := List.pairwise_cons.mp h
    unfold insertEntry
    split_ifs with hlt heq
    · apply List.pairwise_cons.mpr
      constructor
      · intro f hf
        rcases List.mem_cons.mp hf with rfl | hf
        · exact hlt
        · exact hlt.trans (ha f hf)
      · exact h
    · exact List.pairwise_cons.mpr ⟨fun f hf => heq ▸ ha f hf, hl⟩
    · apply List.pairwise_cons.mpr
      constructor
      · intro f hf
        rcases (mem_insertEntry hl).mp hf with rfl | ⟨hf, -⟩
        · exact lt_of_le_of_ne (le_of_not_gt hlt) (Ne.symm heq)
        · exact ha f hf
      · exact ih hl

variable (m : SortedMap K V)

def empty : SortedMap K V := ⟨[], List.Pairwise.nil⟩

/-- The value of a key that was there is replaced. -/
def insert (k : K) (v : V) : SortedMap K V := ⟨insertEntry k v m.entries, sorted_insertEntry m.sorted⟩

def keys : List K := m.entries.map (·.1)

def get? (k : K) : Option V := (m.entries.find? (·.1 = k)).map (·.2)

@[simp] theorem entries_empty : (empty : SortedMap K V).entries = [] := rfl

@[simp] theorem mem_insert : e ∈ (m.insert k v).entries ↔ e = (k, v) ∨ e ∈ m.entries ∧ e.1 ≠ k :=
  mem_insertEntry m.sorted

variable {m}

theorem nodup_keys : m.keys.Nodup := by
  rw [keys, List.Nodup, List.pairwise_map]
  exact m.sorted.imp fun h => h.ne

theorem mem_keys : k ∈ m.keys ↔ ∃ v, (k, v) ∈ m.entries := by
  simp [keys]

theorem get?_eq_some : m.get? k = some v ↔ (k, v) ∈ m.entries := by
  constructor
  · intro h
    obtain ⟨e, hfind, rfl⟩ := Option.map_eq_some_iff.mp h
    have hkey : e.1 = k := by simpa using List.find?_some hfind
    exact hkey ▸ List.mem_of_find?_eq_some hfind
  · intro h
    have hsome : ((m.entries.find? (·.1 = k)).isSome : Prop) :=
      List.find?_isSome.mpr ⟨(k, v), h, by simp⟩
    obtain ⟨e, hfind⟩ := Option.isSome_iff_exists.mp hsome
    have hkey : e.1 = k := by simpa using List.find?_some hfind
    have hsame : e = (k, v) :=
      List.inj_on_of_nodup_map nodup_keys (List.mem_of_find?_eq_some hfind) h hkey
    rw [get?, hfind, hsame]
    rfl

theorem mem_keys_iff : k ∈ m.keys ↔ (m.get? k).isSome := by
  rw [mem_keys, Option.isSome_iff_exists]
  exact exists_congr fun v => get?_eq_some.symm

end SortedMap

end YaNuget
