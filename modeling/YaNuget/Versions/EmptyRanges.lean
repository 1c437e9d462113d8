import YaNuget.Versions.RangeMeaning
import YaNuget.Versions.Successor

/-!
# Ranges without a version

Whether a range is empty is judged by its bounds alone. Between two bounds that
are not in the range themselves there may be no version, as versions have
successors, and a first and a last one.
-/
namespace YaNuget.Versions

open Std Orderings

namespace VersionRange

/-- The bounds are not in the range, and no version is between them: the upper one is right
after the lower one, or the bound that is alone is the first version or the last one. -/
def Vacant (r : VersionRange) : Prop :=
  match r.min, r.max with
  | none, none => False
  | none, some hi => hi.inclusive = false ∧ NuGetVersion.cmp hi.version NuGetVersion.first = .eq
  | some lo, none => lo.inclusive = false ∧ lo.version.successor = none
  | some lo, some hi => lo.inclusive = false ∧ hi.inclusive = false ∧
      ∃ v ∈ lo.version.successor, NuGetVersion.cmp v hi.version = .eq

instance : (r : VersionRange) → Decidable r.Vacant
  | ⟨none, none⟩ => inferInstanceAs (Decidable False)
  | ⟨none, some _⟩ => inferInstanceAs (Decidable (_ ∧ _))
  | ⟨some _, none⟩ => inferInstanceAs (Decidable (_ ∧ _))
  | ⟨some _, some _⟩ => inferInstanceAs (Decidable (_ ∧ _ ∧ _))

variable {r : VersionRange} {lo hi : NuGetVersion}

/-- A version can be read that has the same parts as one within the limits. -/
theorem accepted_iff_strict : (∃ t v, NuGetVersion.parse t = .ok v ∧ r.contains v = true) ↔
    ∃ v : NuGetVersion, v.IsStrict ∧ r.contains v = true := by
  constructor
  · rintro ⟨t, v, hparse, hin⟩
    exact ⟨v, (NuGetVersion.of_parse hparse).1, hin⟩
  · rintro ⟨v, hstrict, hin⟩
    exact ⟨v.toFullString, _, NuGetVersion.parse_toFullString hstrict, hin⟩

section Bounds

open Versions.NuGetVersion

theorem below_iff : (∃ v : NuGetVersion, v.IsStrict ∧ cmp v hi = .lt) ↔ cmp hi first ≠ .eq := by
  constructor
  · rintro ⟨v, -, hlt⟩ heq
    have hle : (cmp hi v).isLE := TransCmp.isLE_trans (by simp [heq]) first_le
    rw [OrientedCmp.gt_of_lt hlt] at hle
    simp at hle
  · intro hne
    refine ⟨first, isStrict_first, ?_⟩
    have hle : (cmp first hi).isLE := first_le
    cases hcmp : cmp first hi with
    | lt => rfl
    | eq => exact (hne (OrientedCmp.eq_symm hcmp)).elim
    | gt => simp [hcmp] at hle

theorem above_iff (hlo : lo.IsStrict) :
    (∃ v : NuGetVersion, v.IsStrict ∧ cmp v lo = .gt) ↔ lo.successor ≠ none := by
  have hspec := isSuccessor_successor hlo
  cases hs : lo.successor with
  | none =>
    rw [hs] at hspec
    simp only [ne_eq, not_true_eq_false, iff_false]
    rintro ⟨v, hv, hgt⟩
    exact hspec v hv (OrientedCmp.lt_of_gt hgt)
  | some s =>
    rw [hs] at hspec
    simp only [ne_eq, reduceCtorEq, not_false_eq_true, iff_true]
    exact ⟨s, hspec.1, OrientedCmp.gt_of_lt hspec.2.1⟩

theorem between_iff (hlo : lo.IsStrict) (hhi : hi.IsStrict) (hlt : cmp lo hi = .lt) :
    (∃ v : NuGetVersion, v.IsStrict ∧ cmp v lo = .gt ∧ cmp v hi = .lt) ↔
      ¬ ∃ s ∈ lo.successor, cmp s hi = .eq := by
  have hspec := isSuccessor_successor hlo
  cases hs : lo.successor with
  | none =>
    rw [hs] at hspec
    exact (hspec hi hhi hlt).elim
  | some s =>
    rw [hs] at hspec
    obtain ⟨hstrict, hafter, hleast⟩ := hspec
    simp only [Option.mem_some_iff, exists_eq_left']
    constructor
    · rintro ⟨v, hv, hgt, hbelow⟩ heq
      have hle : (cmp hi v).isLE :=
        TransCmp.isLE_trans (by simp [OrientedCmp.eq_symm heq]) (hleast v hv (OrientedCmp.lt_of_gt hgt))
      rw [OrientedCmp.gt_of_lt hbelow] at hle
      simp at hle
    · intro hne
      refine ⟨s, hstrict, OrientedCmp.gt_of_lt hafter, ?_⟩
      have hle := hleast hi hhi hlt
      cases hcmp : cmp s hi with
      | lt => rfl
      | eq => exact (hne hcmp).elim
      | gt => simp [hcmp] at hle

end Bounds

/-- A range within the limits has a version in it, unless it is vacant. -/
theorem contains_strict_iff (h : r.IsRange) :
    (∃ v : NuGetVersion, v.IsStrict ∧ r.contains v = true) ↔ ¬ r.Vacant := by
  obtain ⟨min, max⟩ := r
  have hempty := h.nonempty
  cases min with
  | none =>
    cases max with
    | none =>
      simp only [Vacant, not_false_eq_true, iff_true]
      exact ⟨NuGetVersion.first, NuGetVersion.isStrict_first, rfl⟩
    | some hi =>
      cases hinclusive : hi.inclusive with
      | true =>
        simp only [Vacant, hinclusive, Bool.true_eq_false, false_and, not_false_eq_true, iff_true]
        exact ⟨hi.version, h.max hi rfl, by simp [contains, hinclusive, ReflCmp.compare_self]⟩
      | false =>
        simp only [Vacant, hinclusive, true_and, ← ne_eq, ← below_iff]
        simp [contains, hinclusive, Ordering.isLT_iff_eq_lt]
  | some lo =>
    have hlo := h.min lo rfl
    cases max with
    | none =>
      cases hinclusive : lo.inclusive with
      | true =>
        simp only [Vacant, hinclusive, Bool.true_eq_false, false_and, not_false_eq_true, iff_true]
        exact ⟨lo.version, hlo, by simp [contains, hinclusive, ReflCmp.compare_self]⟩
      | false =>
        simp only [Vacant, hinclusive, true_and, ← above_iff hlo]
        simp [contains, hinclusive, Ordering.isGT_iff_eq_gt]
    | some hi =>
      have hhi := h.max hi rfl
      have horder : NuGetVersion.cmp lo.version hi.version = .lt ∨
          NuGetVersion.cmp lo.version hi.version = .eq ∧ lo.inclusive = true ∧
            hi.inclusive = true := by
        simp only [isEmpty] at hempty
        cases hcmp : NuGetVersion.cmp lo.version hi.version with
        | lt => exact .inl rfl
        | eq => simpa [hcmp] using hempty
        | gt => simp [hcmp] at hempty
      cases hloInclusive : lo.inclusive with
      | true =>
        simp only [Vacant, hloInclusive, Bool.true_eq_false, false_and, not_false_eq_true, iff_true]
        refine ⟨lo.version, hlo, ?_⟩
        rcases horder with hlt | ⟨heq, -, hhiInclusive⟩
        · cases hhiInclusive : hi.inclusive <;>
            simp [contains, hloInclusive, hhiInclusive, ReflCmp.compare_self, hlt]
        · simp [contains, hloInclusive, hhiInclusive, ReflCmp.compare_self, heq]
      | false =>
        have hlt : NuGetVersion.cmp lo.version hi.version = .lt := by
          simpa [hloInclusive] using horder
        cases hhiInclusive : hi.inclusive with
        | true =>
          simp only [Vacant, hloInclusive, hhiInclusive, Bool.true_eq_false, false_and, and_false,
            not_false_eq_true, iff_true]
          refine ⟨hi.version, hhi, ?_⟩
          simp [contains, hloInclusive, hhiInclusive, ReflCmp.compare_self,
            OrientedCmp.gt_of_lt hlt]
        | false =>
          simp only [Vacant, hloInclusive, hhiInclusive, true_and, ← between_iff hlo hhi hlt]
          simp [contains, hloInclusive, hhiInclusive, Ordering.isGT_iff_eq_gt,
            Ordering.isLT_iff_eq_lt]

/-- An accepted range has a version in it exactly when it is not vacant. -/
theorem contains_accepted_iff {s : Text} (h : parse s = .ok r) :
    (∃ t v, NuGetVersion.parse t = .ok v ∧ r.contains v = true) ↔ ¬ r.Vacant :=
  accepted_iff_strict.trans (contains_strict_iff (of_parse h))

theorem contains_accepted_sample :
    ∃ t v, NuGetVersion.parse t = .ok v ∧
      VersionRange.contains ⟨some ⟨NuGetVersion.sampleVersion "a".toList, false⟩,
        some ⟨NuGetVersion.sampleVersion "b".toList, false⟩⟩ v = true :=
  (contains_accepted_iff (s := "(1.0.0-a,1.0.0-b)".toList) (by decide +kernel)).mpr
    (by decide +kernel)

/-- The range between a pre-release and the first one after it is accepted. -/
theorem empty_range_accepted :
    parse "(1.0.0-a,1.0.0-a.0)".toList = .ok ⟨some ⟨NuGetVersion.sampleVersion "a".toList, false⟩,
      some ⟨⟨1, 0, 0, 0, ["a".toList, "0".toList], none, "1.0.0-a.0".toList⟩, false⟩⟩ ∧
    ¬ ∃ t v, NuGetVersion.parse t = .ok v ∧
      VersionRange.contains ⟨some ⟨NuGetVersion.sampleVersion "a".toList, false⟩,
        some ⟨⟨1, 0, 0, 0, ["a".toList, "0".toList], none, "1.0.0-a.0".toList⟩, false⟩⟩ v = true := by
  have hparse : parse "(1.0.0-a,1.0.0-a.0)".toList =
      .ok ⟨some ⟨NuGetVersion.sampleVersion "a".toList, false⟩,
        some ⟨⟨1, 0, 0, 0, ["a".toList, "0".toList], none, "1.0.0-a.0".toList⟩, false⟩⟩ := by
    decide +kernel
  refine ⟨hparse, ?_⟩
  rw [accepted_iff_strict, contains_strict_iff (of_parse hparse)]
  decide +kernel

end VersionRange

end YaNuget.Versions
