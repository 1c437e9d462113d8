import Mathlib.Data.List.Nodup

/-!
# The first item of each key

A list that keeps items in the order they come, and drops one whose key it has
already.
-/
namespace YaNuget

/-- Items of which no two have the same key. -/
structure FirstSeen {α κ : Type} (key : α → κ) where
  items : List α
  nodup : (items.map key).Nodup

namespace FirstSeen

variable {α κ : Type} {key : α → κ}

def empty : FirstSeen key := ⟨[], List.nodup_nil⟩

@[simp] theorem items_empty : (empty : FirstSeen key).items = [] := rfl

variable [DecidableEq κ]

/-- Add an item, unless one with its key is there. -/
def push (seen : FirstSeen key) (a : α) : FirstSeen key :=
  if h : key a ∈ seen.items.map key then seen
  else ⟨seen.items ++ [a], by
    rw [List.map_append, List.nodup_append]
    refine ⟨seen.nodup, List.nodup_singleton _, fun x hx y hy => ?_⟩
    obtain rfl : y = key a := by simpa using hy
    rintro rfl
    exact h hx⟩

def pushAll (seen : FirstSeen key) (added : List α) : FirstSeen key := added.foldl push seen

section Rules

variable {seen : FirstSeen key} {a : α} {added : List α} {k : κ}

theorem push_of_mem (h : key a ∈ seen.items.map key) : seen.push a = seen := dif_pos h

theorem items_push_of_notMem (h : key a ∉ seen.items.map key) :
    (seen.push a).items = seen.items ++ [a] := by
  rw [push, dif_neg h]

theorem mem_keys_push :
    k ∈ (seen.push a).items.map key ↔ k ∈ seen.items.map key ∨ k = key a := by
  by_cases h : key a ∈ seen.items.map key
  · rw [push_of_mem h]
    constructor
    · exact Or.inl
    · rintro (hk | rfl)
      · exact hk
      · exact h
  · simp [items_push_of_notMem h]

theorem mem_push {x : α} (h : x ∈ (seen.push a).items) : x ∈ seen.items ∨ x = a := by
  by_cases hmem : key a ∈ seen.items.map key
  · rw [push_of_mem hmem] at h
    exact Or.inl h
  · simpa [items_push_of_notMem hmem] using h

theorem pushAll_append (rest : List α) :
    seen.pushAll (added ++ rest) = (seen.pushAll added).pushAll rest := List.foldl_append

theorem mem_keys_pushAll :
    k ∈ (seen.pushAll added).items.map key ↔ k ∈ seen.items.map key ∨ k ∈ added.map key := by
  induction added generalizing seen with
  | nil => simp [pushAll]
  | cons a added ih =>
    have hpush : (seen.push a).pushAll added = seen.pushAll (a :: added) := rfl
    rw [← hpush, ih, mem_keys_push, List.map_cons, List.mem_cons, or_assoc]

theorem mem_pushAll {x : α} (h : x ∈ (seen.pushAll added).items) : x ∈ seen.items ∨ x ∈ added := by
  induction added generalizing seen with
  | nil => exact Or.inl h
  | cons a added ih =>
    have hrest : x ∈ ((seen.push a).pushAll added).items := h
    rcases ih hrest with hseen | hadded
    · rcases mem_push hseen with hx | rfl
      · exact Or.inl hx
      · exact Or.inr List.mem_cons_self
    · exact Or.inr (List.mem_cons_of_mem a hadded)

theorem pushAll_of_subset (h : ∀ a ∈ added, key a ∈ seen.items.map key) :
    seen.pushAll added = seen := by
  induction added with
  | nil => rfl
  | cons a added ih =>
    have hpush : (seen.push a).pushAll added = seen.pushAll (a :: added) := rfl
    rw [← hpush, push_of_mem (h a List.mem_cons_self)]
    exact ih fun b hb => h b (List.mem_cons_of_mem a hb)

/-- Items that are all new come behind the others. -/
theorem items_pushAll_of_nodup (h : ((seen.items ++ added).map key).Nodup) :
    (seen.pushAll added).items = seen.items ++ added := by
  induction added generalizing seen with
  | nil => simp [pushAll]
  | cons a added ih =>
    have hnew : key a ∉ seen.items.map key := by
      rw [List.map_append, List.map_cons, List.nodup_append] at h
      intro hmem
      exact h.2.2 (key a) hmem (key a) List.mem_cons_self rfl
    have hitems := items_push_of_notMem hnew
    have hrest : (((seen.push a).items ++ added).map key).Nodup := by
      rw [hitems, List.append_assoc]
      exact h
    calc (seen.pushAll (a :: added)).items
        = ((seen.push a).pushAll added).items := rfl
      _ = (seen.push a).items ++ added := ih hrest
      _ = seen.items ++ a :: added := by rw [hitems, List.append_assoc, List.singleton_append]

end Rules

end FirstSeen

end YaNuget
