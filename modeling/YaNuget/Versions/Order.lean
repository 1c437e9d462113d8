import YaNuget.Data.Orderings
import YaNuget.Versions.NuGetVersion

/-!
# The order of versions

Versions are compared number by number, then by whether they are released, then
identifier by identifier. What compares equal feeds the hasher the same.
-/
namespace YaNuget.Versions

open Std Orderings

theorem compare_false_true : compare false true = .lt := rfl

theorem compare_true_false : compare true false = .gt := rfl

/-- Numbers come first, by value; the rest by their letters in lower case. -/
theorem compareIdentifier_eq : compareIdentifier =
    compareLex (compareOn fun id => (Text.parseU64 id).isNone)
      (compareLex (compareOn fun id => (Text.parseU64 id).getD 0)
        (compareOn fun id => if (Text.parseU64 id).isSome then [] else Text.lower id)) := by
  funext a b
  unfold compareIdentifier
  cases ha : Text.parseU64 a with
  | none =>
    cases hb : Text.parseU64 b with
    | none => simp [compareLex, compareOn, ha, hb]
    | some nb => simp [compareLex, compareOn, ha, hb, compare_true_false]
  | some na =>
    cases hb : Text.parseU64 b with
    | none => simp [compareLex, compareOn, ha, hb, compare_false_true]
    | some nb => simp [compareLex, compareOn, ha, hb]

instance : TransCmp compareIdentifier := by
  rw [compareIdentifier_eq]
  infer_instance

theorem compareIdentifier_eq_eq {a b : Text} :
    compareIdentifier a b = .eq ↔ hashIdentifier a = hashIdentifier b := by
  unfold compareIdentifier hashIdentifier
  cases Text.parseU64 a with
  | none => cases Text.parseU64 b <;> simp
  | some na => cases Text.parseU64 b <;> simp

theorem comparePreIdentifiers_eq : comparePreIdentifiers = List.compareLex compareIdentifier := by
  funext a b
  exact find?_zipWith_eq_compareLex a b

theorem comparePreIdentifiers_eq_eq {a b : List Text} :
    comparePreIdentifiers a b = .eq ↔ a.map hashIdentifier = b.map hashIdentifier := by
  rw [comparePreIdentifiers_eq, lists_eq_eq]
  simp only [compareIdentifier_eq_eq]
  rw [← List.forall₂_eq_eq_eq, List.forall₂_map_left_iff, List.forall₂_map_right_iff]

namespace NuGetVersion

theorem cmpCore_eq : cmpCore = compareLex (compareOn major) (compareLex (compareOn minor)
    (compareLex (compareOn patch) (compareOn revision))) := rfl

theorem cmpPre_eq : cmpPre = compareLex (compareOn fun v => v.pre.isEmpty)
    (fun a b => List.compareLex compareIdentifier a.pre b.pre) := by
  funext a b
  unfold cmpPre
  cases ha : a.pre with
  | nil =>
    cases hb : b.pre with
    | nil => simp [compareLex, compareOn, ha, hb, List.compareLex_nil_nil]
    | cons y ys => simp [compareLex, compareOn, ha, hb, compare_true_false]
  | cons x xs =>
    cases hb : b.pre with
    | nil => simp [compareLex, compareOn, ha, hb, compare_false_true]
    | cons y ys => simp [compareLex, compareOn, ha, hb, comparePreIdentifiers_eq]

instance : TransCmp cmp := by
  have core : TransCmp cmpCore := by
    rw [cmpCore_eq]
    infer_instance
  have lists : TransCmp (List.compareLex compareIdentifier) := inferInstance
  have labels : TransCmp fun a b : NuGetVersion =>
      List.compareLex compareIdentifier a.pre b.pre :=
    { eq_swap := lists.eq_swap
      isLE_trans := lists.isLE_trans }
  have pre : TransCmp cmpPre := by
    rw [cmpPre_eq]
    infer_instance
  exact inferInstanceAs (TransCmp (compareLex cmpCore cmpPre))

theorem cmpCore_eq_eq {a b : NuGetVersion} : cmpCore a b = .eq ↔ a.core = b.core := by
  simp [cmpCore, core, Ordering.then_eq_eq]

theorem cmp_eq_eq {a b : NuGetVersion} : cmp a b = .eq ↔
    a.core = b.core ∧ a.pre.map hashIdentifier = b.pre.map hashIdentifier := by
  have hpre : cmpPre a b = .eq ↔ a.pre.map hashIdentifier = b.pre.map hashIdentifier := by
    rw [cmpPre_eq]
    simp only [compareLex, Ordering.then_eq_eq, ← comparePreIdentifiers_eq,
      comparePreIdentifiers_eq_eq]
    constructor
    · exact fun h => h.2
    · intro h
      refine ⟨?_, h⟩
      have hlength := congrArg List.length h
      cases ha : a.pre <;> cases hb : b.pre <;> simp_all [compareOn]
  rw [cmp, Ordering.then_eq_eq, cmpCore_eq_eq, hpre]

theorem hash_eq_of_cmp {a b : NuGetVersion} (h : cmp a b = .eq) : a.hash = b.hash := by
  obtain ⟨hcore, hpre⟩ := cmp_eq_eq.mp h
  have hlength : a.pre.length = b.pre.length := by simpa using congrArg List.length hpre
  rw [hash, hash, hcore, hpre, hlength]

end NuGetVersion

end YaNuget.Versions
