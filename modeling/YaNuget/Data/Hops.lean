import Mathlib.Data.List.Chain
import Mathlib.Data.Nat.Notation

/-!
# Chains of hops

A walk that goes from place to place as it is told, a bounded number of times,
and leaves a record at each. What is checked before every hop holds all along
the walk.
-/
namespace YaNuget.Hops

variable {P R : Type} (place : R → P) (visits : P → Prop) (leads : P → P → Prop)
  (leaves : R → Prop)

/-- The records of a walk from a place that may visit `n` places. It can end anywhere. -/
inductive Walk : ℕ → P → List R → Prop
  | none {n : ℕ} {p : P} : Walk n p []
  | last {n : ℕ} {r : R} : visits (place r) → leaves r → Walk (n + 1) (place r) [r]
  | hop {n : ℕ} {r : R} {next : P} {rest : List R} : visits (place r) → leaves r →
      leads (place r) next → Walk n next rest → Walk (n + 1) (place r) (r :: rest)

variable {place visits leads leaves} {n : ℕ} {p : P} {rs : List R}

theorem Walk.length_le (h : Walk place visits leads leaves n p rs) : rs.length ≤ n := by
  induction h with
  | none => exact Nat.zero_le _
  | last _ _ => exact Nat.succ_le_succ (Nat.zero_le _)
  | hop _ _ _ _ ih => exact Nat.succ_le_succ ih

theorem Walk.forall (h : Walk place visits leads leaves n p rs) :
    ∀ r ∈ rs, visits (place r) ∧ leaves r := by
  induction h with
  | none => simp
  | last hvisits hleaves => simpa using ⟨hvisits, hleaves⟩
  | hop hvisits hleaves _ _ ih => simpa using ⟨⟨hvisits, hleaves⟩, ih⟩

theorem Walk.head (h : Walk place visits leads leaves n p rs) : ∀ r ∈ rs.head?, place r = p := by
  cases h with
  | none => simp
  | last _ _ => simp
  | hop _ _ _ _ => simp

theorem Walk.isChain (h : Walk place visits leads leaves n p rs) :
    rs.IsChain fun r r' => leads (place r) (place r') := by
  induction h with
  | none => exact .nil
  | last _ _ => exact .singleton _
  | hop _ _ hleads hrest ih =>
    refine List.isChain_cons.mpr ⟨fun r' hr' => ?_, ih⟩
    rwa [hrest.head r' hr']

end YaNuget.Hops
