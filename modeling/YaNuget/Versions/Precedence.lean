import YaNuget.Versions.Identity

/-!
# Precedence of versions

Precedence as SemVer defines it compares identifiers made of digits by value,
however long they are. The order of versions does so as far as the values fit a
machine integer; longer identifiers it compares as text.
-/
namespace YaNuget.Versions

open Std Orderings

/-- Identifiers made of digits are compared by value and come before all others. -/
def identifierPrecedence (a b : Text) : Ordering :=
  if a.all Char.isDigit then
    if b.all Char.isDigit then compare (Text.value a) (Text.value b) else .lt
  else if b.all Char.isDigit then .gt
  else compare (Text.lower a) (Text.lower b)

/-- A release, without a label, comes after its pre-releases; a list of identifiers after its
prefixes. -/
def labelPrecedence : List Text → List Text → Ordering
  | [], [] => .eq
  | [], _ :: _ => .gt
  | _ :: _, [] => .lt
  | a, b => List.compareLex identifierPrecedence a b

/-- Precedence of SemVer, with four numbers and labels in any case. -/
def precedence (a b : NuGetVersion) : Ordering :=
  (compare a.major b.major).then <| (compare a.minor b.minor).then <|
    (compare a.patch b.patch).then <| (compare a.revision b.revision).then <|
      labelPrecedence a.pre b.pre

/-- The identifiers differ in case at most. -/
def SameIdentifier (a b : Text) : Prop := Text.lower a = Text.lower b

instance : DecidableRel SameIdentifier := fun a b =>
  inferInstanceAs (Decidable (Text.lower a = Text.lower b))

/-- All digits, and too many for a machine integer. -/
def IsLong (id : Text) : Prop := id.all Char.isDigit ∧ 2 ^ 64 ≤ Text.value id

instance (id : Text) : Decidable (IsLong id) := inferInstanceAs (Decidable (_ ∧ _))

/-- A long number stands before what it precedes, but its text stands after it: what it
precedes is a longer number or no number at all. -/
def Misplaced (a b : Text) : Prop :=
  IsLong a ∧ compare (Text.lower a) (Text.lower b) = .gt ∧
    (b.all Char.isDigit → a.length < b.length)

instance : DecidableRel Misplaced := fun _ _ => inferInstanceAs (Decidable (_ ∧ _))

section Identifiers

variable {a b : Text}

theorem identifierPrecedence_swap (a b : Text) :
    identifierPrecedence b a = (identifierPrecedence a b).swap := by
  unfold identifierPrecedence
  split_ifs
  · exact OrientedCmp.eq_swap
  · rfl
  · rfl
  · exact OrientedCmp.eq_swap

theorem parseU64_of_identifier (h : IsIdentifier a) : Text.parseU64 a =
    if a.all Char.isDigit ∧ ¬ IsLong a then some (Text.value a) else none := by
  by_cases hdigits : a.all Char.isDigit
  · rw [Text.parseU64_of_digits h.1 hdigits]
    by_cases hlt : Text.value a < 2 ^ 64
    · rw [if_pos hlt, if_pos ⟨hdigits, fun hlong => by have := hlong.2; omega⟩]
    · rw [if_neg hlt, if_neg (fun hshort => hshort.2 ⟨hdigits, by omega⟩)]
  · rw [Text.parseU64_eq_none (not_plus_mem h) (by simpa using hdigits), if_neg (by simp [hdigits])]

/-- Valid numbers have no leading zeros, so the longer one is greater. -/
theorem value_lt_of_length (ha : validIdentifier false a) (hda : a.all Char.isDigit)
    (hb : validIdentifier false b) (hdb : b.all Char.isDigit) (h : a.length < b.length) :
    Text.value a < Text.value b := by
  have hne := List.length_pos_iff.mpr (isIdentifier_of_valid ha).1
  cases b with
  | nil => simp at h
  | cons c t =>
    rcases head_ne_zero hb hdb with hzero | hc
    · rw [hzero, List.length_singleton] at h
      omega
    · simp only [List.all_cons, Bool.and_eq_true] at hdb
      exact Text.value_lt_value hda hdb.1 hc h

end Identifiers

section Agreement

variable {a b : Text}

theorem lt_iff_not_gt {o : Ordering} (h : o ≠ .eq) : o = .lt ↔ ¬ o = .gt := by
  cases o <;> simp_all

theorem gt_iff_not_lt {o : Ordering} (h : o ≠ .eq) : o = .gt ↔ ¬ o = .lt := by
  cases o <;> simp_all

theorem compareIdentifier_same (ha : validIdentifier false a) (hb : validIdentifier false b) :
    compareIdentifier a b = .eq ↔ SameIdentifier a b := by
  rw [compareIdentifier_eq_eq]
  constructor
  · exact lower_eq_of_hashIdentifier ha hb
  · intro h
    rw [← hashIdentifier_lower a, ← hashIdentifier_lower b, h]

theorem identifierPrecedence_same (ha : validIdentifier false a) (hb : validIdentifier false b) :
    identifierPrecedence a b = .eq ↔ SameIdentifier a b := by
  have hdigits (h : SameIdentifier a b) : a.all Char.isDigit = b.all Char.isDigit := by
    rw [← Text.all_isDigit_lower a, ← Text.all_isDigit_lower b, h]
  unfold identifierPrecedence
  split_ifs with hda hdb hdb
  · rw [Nat.compare_eq_eq]
    constructor
    · intro h
      rw [eq_decimal_value ha hda, eq_decimal_value hb hdb, h]
      rfl
    · intro h
      rw [SameIdentifier, Text.lower_of_digits hda, Text.lower_of_digits hdb] at h
      rw [h]
  · simp only [false_iff]
    exact fun h => hdb (hdigits h ▸ hda)
  · simp only [false_iff]
    exact fun h => hda (hdigits h ▸ hdb)
  · exact LawfulEqCmp.compare_eq_iff_eq

/-- Short numbers are compared as SemVer compares them, with each other and with the rest. -/
theorem compareIdentifier_of_short (ha : IsIdentifier a) (hb : IsIdentifier b)
    (hla : ¬ IsLong a) (hlb : ¬ IsLong b) :
    compareIdentifier a b = identifierPrecedence a b := by
  unfold compareIdentifier identifierPrecedence
  rw [parseU64_of_identifier ha, parseU64_of_identifier hb]
  by_cases hda : a.all Char.isDigit
  · by_cases hdb : b.all Char.isDigit
    · simp only [hda, hdb, hla, hlb, not_false_eq_true, and_self, if_true]
    · simp [hda, hdb, hla]
  · by_cases hdb : b.all Char.isDigit
    · simp [hda, hdb, hlb]
    · simp [hda, hdb]

/-- A long number is compared as text, except with a short one. -/
theorem compareIdentifier_of_long (ha : validIdentifier false a) (hb : validIdentifier false b)
    (hla : IsLong a) (hne : ¬ SameIdentifier a b) :
    compareIdentifier a b = identifierPrecedence a b ↔ ¬ (Misplaced a b ∨ Misplaced b a) := by
  have hia := isIdentifier_of_valid ha
  have hib := isIdentifier_of_valid hb
  have hda := hla.1
  have hnone : Text.parseU64 a = none := by
    rw [parseU64_of_identifier hia, if_neg (fun h => h.2 hla)]
  have htext : compare (Text.lower a) (Text.lower b) ≠ .eq := by
    rwa [ne_eq, LawfulEqCmp.compare_eq_iff_eq]
  by_cases hdb : b.all Char.isDigit
  · by_cases hlb : IsLong b
    · have hnone' : Text.parseU64 b = none := by
        rw [parseU64_of_identifier hib, if_neg (fun h => h.2 hlb)]
      simp only [compareIdentifier, identifierPrecedence, hnone, hnone', hda, hdb, if_true]
      rcases Nat.lt_trichotomy a.length b.length with hlt | heq | hgt
      · rw [Nat.compare_eq_lt.mpr (value_lt_of_length ha hda hb hdb hlt)]
        have hback : ¬ Misplaced b a := fun h => absurd (h.2.2 hda) (by omega)
        have hforth : Misplaced a b ↔ compare (Text.lower a) (Text.lower b) = .gt := by
          simp [Misplaced, hla, hlt]
        rw [hforth, or_iff_left hback]
        exact lt_iff_not_gt htext
      · rw [Text.lower_of_digits hda, Text.lower_of_digits hdb, Text.compare_value hda hdb heq]
        have hforth : ¬ Misplaced a b := fun h => absurd (h.2.2 hdb) (by omega)
        have hback : ¬ Misplaced b a := fun h => absurd (h.2.2 hda) (by omega)
        simp [hforth, hback]
      · rw [Nat.compare_eq_gt.mpr (value_lt_of_length hb hdb ha hda hgt)]
        have hforth : ¬ Misplaced a b := fun h => absurd (h.2.2 hdb) (by omega)
        have hswap : compare (Text.lower b) (Text.lower a) =
            (compare (Text.lower a) (Text.lower b)).swap := OrientedCmp.eq_swap
        have hback : Misplaced b a ↔ compare (Text.lower a) (Text.lower b) = .lt := by
          simp [Misplaced, hlb, hgt, hswap]
        rw [hback, or_iff_right hforth]
        exact gt_iff_not_lt htext
    · have hlt : Text.value b < Text.value a := by
        have hshort : Text.value b < 2 ^ 64 := by
          by_contra hge
          exact hlb ⟨hdb, by omega⟩
        exact Nat.lt_of_lt_of_le hshort hla.2
      have hlength : ¬ a.length < b.length := by
        intro h
        have := value_lt_of_length ha hda hb hdb h
        omega
      have hread : Text.parseU64 b = some (Text.value b) := by
        rw [parseU64_of_identifier hib, if_pos ⟨hdb, hlb⟩]
      simp [compareIdentifier, identifierPrecedence, hnone, hread, hda, hdb, Misplaced, hlb,
        hlength, Nat.compare_eq_gt.mpr hlt]
  · have hnone' : Text.parseU64 b = none := by
      rw [parseU64_of_identifier hib, if_neg (fun h => hdb h.1)]
    have hback : ¬ Misplaced b a := fun h => hdb h.1.1
    have hforth : Misplaced a b ↔ compare (Text.lower a) (Text.lower b) = .gt := by
      simp [Misplaced, hla, hdb]
    simp only [compareIdentifier, identifierPrecedence, hnone, hnone', hda, hdb, if_true]
    rw [hforth, or_iff_left hback]
    exact lt_iff_not_gt htext

theorem compareIdentifier_eq_iff (ha : validIdentifier false a) (hb : validIdentifier false b)
    (hne : ¬ SameIdentifier a b) :
    compareIdentifier a b = identifierPrecedence a b ↔ ¬ (Misplaced a b ∨ Misplaced b a) := by
  by_cases hla : IsLong a
  · exact compareIdentifier_of_long ha hb hla hne
  by_cases hlb : IsLong b
  · have hswap := compareIdentifier_of_long hb ha hlb (fun h => hne (Eq.symm h))
    have heq : compareIdentifier b a = (compareIdentifier a b).swap := OrientedCmp.eq_swap
    rw [heq, identifierPrecedence_swap, Ordering.swap_inj] at hswap
    rw [hswap, or_comm]
  · have hagree := compareIdentifier_of_short (isIdentifier_of_valid ha) (isIdentifier_of_valid hb)
      hla hlb
    simp [hagree, Misplaced, hla, hlb]

end Agreement

namespace NuGetVersion

variable {a b : NuGetVersion}

theorem cmpPre_eq_labelPrecedence (ha : a.IsStrict) (hb : b.IsStrict) :
    cmpPre a b = labelPrecedence a.pre b.pre ↔
      ∀ e ∈ firstDifference SameIdentifier a.pre b.pre,
        compareIdentifier e.1 e.2 = identifierPrecedence e.1 e.2 := by
  have hpa := ha.pre
  have hpb := hb.pre
  unfold cmpPre labelPrecedence
  cases hxs : a.pre with
  | nil => cases hys : b.pre <;> simp [firstDifference]
  | cons x xs =>
    cases hys : b.pre with
    | nil => simp [firstDifference]
    | cons y ys =>
      rw [hxs] at hpa
      rw [hys] at hpb
      simp only [List.isEmpty_cons, comparePreIdentifiers_eq]
      exact lists_agree_iff
        (fun x hx y hy => compareIdentifier_same (hpa x hx) (hpb y hy))
        (fun x hx y hy => identifierPrecedence_same (hpa x hx) (hpb y hy))

/-- Accepted versions are ordered by precedence, unless the first identifiers that differ are
misplaced. -/
theorem cmp_eq_precedence_iff {s t : Text} (ha : parse s = .ok a) (hb : parse t = .ok b) :
    cmp a b = precedence a b ↔ ¬ (a.core = b.core ∧
      ∃ e ∈ firstDifference SameIdentifier a.pre b.pre,
        Misplaced e.1 e.2 ∨ Misplaced e.2 e.1) := by
  have hstrict := (of_parse ha).1
  have hstrict' := (of_parse hb).1
  have hsplit : precedence a b = (cmpCore a b).then (labelPrecedence a.pre b.pre) := by
    unfold precedence cmpCore
    simp only [Ordering.then_assoc]
  rw [hsplit, cmp, ← cmpCore_eq_eq]
  cases hcore : cmpCore a b with
  | lt => simp
  | gt => simp
  | eq =>
    rw [Ordering.eq_then, Ordering.eq_then, cmpPre_eq_labelPrecedence hstrict hstrict']
    constructor
    · rintro hagree ⟨-, ⟨x, y⟩, hfirst, hmisplaced⟩
      obtain ⟨hx, hy, hne⟩ := firstDifference_mem hfirst
      exact (compareIdentifier_eq_iff (hstrict.pre x hx) (hstrict'.pre y hy) hne).mp
        (hagree (x, y) hfirst) hmisplaced
    · rintro hplaced ⟨x, y⟩ hfirst
      obtain ⟨hx, hy, hne⟩ := firstDifference_mem hfirst
      exact (compareIdentifier_eq_iff (hstrict.pre x hx) (hstrict'.pre y hy) hne).mpr
        fun hmisplaced => hplaced ⟨rfl, (x, y), hfirst, hmisplaced⟩

/-- The pre-release `id` of version 1.0.0. -/
def sampleVersion (id : Text) : NuGetVersion := ⟨1, 0, 0, 0, [id], none, "1.0.0-".toList ++ id⟩

theorem cmp_eq_precedence_sample :
    cmp (sampleVersion "alpha".toList) (sampleVersion "7".toList) =
      precedence (sampleVersion "alpha".toList) (sampleVersion "7".toList) :=
  (cmp_eq_precedence_iff (s := "1.0.0-alpha".toList) (t := "1.0.0-7".toList)
    (by decide +kernel) (by decide +kernel)).mpr (by decide +kernel)

/-- Of two long numbers the one with more digits is greater, but its text stands first. -/
theorem long_numbers_misordered : ∃ a b : NuGetVersion,
    parse "1.0.0-99999999999999999999".toList = .ok a ∧
      parse "1.0.0-100000000000000000000".toList = .ok b ∧
        cmp a b = .gt ∧ precedence a b = .lt := by
  refine ⟨sampleVersion "99999999999999999999".toList,
    sampleVersion "100000000000000000000".toList, ?_⟩
  decide +kernel

end NuGetVersion

end YaNuget.Versions
