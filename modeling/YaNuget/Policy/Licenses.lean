import Mathlib.Data.List.Nodup
import YaNuget.Policy.Expressions

/-!
# Licenses and their spellings

A license has several ids: with and without a plus sign, `-only` or
`-or-later`, in any case, and the deprecated ones. They are of one family.
-/
namespace YaNuget.Policy

open Words

section Suffixes

variable {s suffix r : String}

theorem stripSuffix_eq_some :
    stripSuffix s suffix = some r ↔ s.toList = r.toList ++ suffix.toList := by
  unfold stripSuffix
  simp only
  split_ifs with h
  · rw [Option.some.injEq]
    obtain ⟨rest, hrest⟩ := List.isPrefixOf_iff_prefix.mp h
    rw [← hrest, List.drop_left]
    have hs : s.toList = rest.reverse ++ suffix.toList := by
      rw [← List.reverse_reverse s.toList, ← hrest]
      simp
    rw [hs]
    constructor
    · rintro rfl
      rw [String.toList_ofList]
    · intro heq
      rw [List.append_cancel_right heq, String.ofList_toList]
  · simp only [false_iff]
    intro heq
    apply h
    rw [List.isPrefixOf_iff_prefix, heq, List.reverse_append]
    exact List.prefix_append _ _

theorem stripSuffix_append (a : Text) (suffix : String) :
    stripSuffix (String.ofList (a ++ suffix.toList)) suffix = some (String.ofList a) := by
  rw [stripSuffix_eq_some]
  simp

theorem stripSuffix_eq_none {a b : Text} (h : a.getLast? ≠ b.getLast?) (hb : b ≠ []) :
    stripSuffix (String.ofList a) (String.ofList b) = none := by
  rw [Option.eq_none_iff_forall_ne_some]
  intro r hr
  rw [stripSuffix_eq_some] at hr
  simp only [String.toList_ofList] at hr
  apply h
  rw [hr, List.getLast?_append_of_ne_nil _ hb]

theorem family_only (a : Text) : family (String.ofList (a ++ "-only".toList)) = String.ofList a := by
  unfold family
  rw [stripSuffix_append]
  rfl

theorem family_orLater (a : Text) :
    family (String.ofList (a ++ "-or-later".toList)) = String.ofList a := by
  have hnone : stripSuffix (String.ofList (a ++ "-or-later".toList)) "-only" = none := by
    apply stripSuffix_eq_none (b := "-only".toList)
    · rw [List.getLast?_append_of_ne_nil _ (by decide)]
      decide
    · decide
  unfold family
  rw [hnone, stripSuffix_append]
  rfl

end Suffixes

section Words

def IsWord (w : Text) : Prop := ∀ c ∈ w, isWhitespace c = false

theorem trim_of_word {w : Text} (h : IsWord w) : trim (String.ofList w) = String.ofList w := by
  unfold trim
  rw [String.toList_ofList, Text.dropWhile_eq_self h,
    Text.dropWhile_eq_self fun c hc => h c (List.mem_reverse.mp hc), List.reverse_reverse]

/-- The id that a deprecated one stands for, and the exception it implies. -/
def unaliased (base : String) : String × Option String :=
  match deprecated.find? fun d => eqIgnoreAsciiCase d.1 base with
  | some d => (toAsciiLowercase d.2.1, d.2.2)
  | none => (toAsciiLowercase base, none)

theorem normalizeId_of_none {raw : String} (h : stripSuffix (trim raw) "+" = none) :
    normalizeId raw = unaliased (trim raw) := by
  unfold normalizeId unaliased
  dsimp only
  rw [h]
  cases deprecated.find? fun d => eqIgnoreAsciiCase d.1 (trim raw) with
  | none => rfl
  | some d => rfl

theorem normalizeId_of_some {raw base : String} (h : stripSuffix (trim raw) "+" = some base) :
    normalizeId raw =
      (family (unaliased (trim base)).1 ++ "-or-later", (unaliased (trim base)).2) := by
  unfold normalizeId unaliased
  dsimp only
  rw [h]
  cases deprecated.find? fun d => eqIgnoreAsciiCase d.1 (trim base) with
  | none => rfl
  | some d => rfl

theorem normalizeId_plain {w : Text} (h : IsWord w) (hplus : w.getLast? ≠ some '+') :
    normalizeId (String.ofList w) = unaliased (String.ofList w) := by
  have hnone : stripSuffix (trim (String.ofList w)) "+" = none := by
    rw [trim_of_word h]
    exact stripSuffix_eq_none (b := ['+']) hplus (by decide)
  rw [normalizeId_of_none hnone, trim_of_word h]

theorem normalizeId_plus {w : Text} (h : IsWord w) :
    normalizeId (String.ofList (w ++ ['+'])) =
      (family (unaliased (String.ofList w)).1 ++ "-or-later", (unaliased (String.ofList w)).2) := by
  have hword : IsWord (w ++ ['+']) := by
    intro c hc
    rcases List.mem_append.mp hc with hc | hc
    · exact h c hc
    · rw [List.mem_singleton.mp hc]
      decide
  have hsome : stripSuffix (trim (String.ofList (w ++ ['+']))) "+" = some (String.ofList w) := by
    rw [trim_of_word hword]
    exact stripSuffix_append w "+"
  rw [normalizeId_of_some hsome, trim_of_word h]

def licenseFamily (w : Text) : String := family (normalizeId (String.ofList w)).1

theorem licenseFamily_plain {w : Text} (h : IsWord w) (hplus : w.getLast? ≠ some '+') :
    licenseFamily w = family (unaliased (String.ofList w)).1 := by
  rw [licenseFamily, normalizeId_plain h hplus]

theorem licenseFamily_plus {w : Text} (h : IsWord w) :
    licenseFamily (w ++ ['+']) = family (unaliased (String.ofList w)).1 := by
  have hend := family_orLater (family (unaliased (String.ofList w)).1).toList
  rw [String.ofList_append, String.ofList_toList, String.ofList_toList] at hend
  rw [licenseFamily, normalizeId_plus h]
  exact hend

end Words

section Deprecated

variable {w : Text} {d : String × String × Option String}

/-- The word is no deprecated id. -/
def IsCurrent (w : Text) : Prop := ∀ d ∈ deprecated, Text.lower d.1.toList ≠ Text.lower w

theorem unaliased_of_current (h : IsCurrent w) :
    unaliased (String.ofList w) = (String.ofList (Text.lower w), none) := by
  have hnone : deprecated.find? (fun d => eqIgnoreAsciiCase d.1 (String.ofList w)) = none := by
    rw [List.find?_eq_none]
    intro d hd heq
    rw [eqIgnoreAsciiCase_iff, String.toList_ofList] at heq
    exact h d hd heq
  unfold unaliased
  rw [hnone, toAsciiLowercase_ofList]

theorem nodup_deprecated : (deprecated.map fun d => Text.lower d.1.toList).Nodup := by
  decide +kernel

theorem unaliased_of_deprecated (hd : d ∈ deprecated)
    (h : Text.lower w = Text.lower d.1.toList) :
    unaliased (String.ofList w) = (String.ofList (Text.lower d.2.1.toList), d.2.2) := by
  have hsame : eqIgnoreAsciiCase d.1 (String.ofList w) = true := by
    rw [eqIgnoreAsciiCase_iff, String.toList_ofList, h]
  unfold unaliased
  cases hfound : deprecated.find? fun d => eqIgnoreAsciiCase d.1 (String.ofList w) with
  | none => exact absurd hsame (List.find?_eq_none.mp hfound d hd)
  | some d' =>
    have hkey := List.find?_some hfound
    rw [eqIgnoreAsciiCase_iff, String.toList_ofList, h] at hkey
    obtain rfl := List.inj_on_of_nodup_map nodup_deprecated (List.mem_of_find?_eq_some hfound) hd
      hkey
    rfl

theorem current_of_deprecated (hd : d ∈ deprecated) : IsCurrent d.2.1.toList := by
  have hall : deprecated.all (fun d => deprecated.all fun d' =>
      Text.lower d'.1.toList ≠ Text.lower d.2.1.toList) = true := by
    decide +kernel
  intro d' hd'
  simpa using List.all_eq_true.mp (List.all_eq_true.mp hall d hd) d' hd'

theorem current_of_suffix {name : Text}
    (h : Text.lower w = name ++ "-only".toList ∨ Text.lower w = name ++ "-or-later".toList) :
    IsCurrent w := by
  have hall : deprecated.all (fun d => !("-only".toList.isSuffixOf (Text.lower d.1.toList)) &&
      !("-or-later".toList.isSuffixOf (Text.lower d.1.toList))) = true := by
    decide +kernel
  intro d hd heq
  have hnot := List.all_eq_true.mp hall d hd
  simp only [Bool.and_eq_true, Bool.not_eq_true', ← Bool.not_eq_true,
    List.isSuffixOf_iff_suffix] at hnot
  rcases h with h | h
  · exact hnot.1 ⟨name, by rw [heq, h]⟩
  · exact hnot.2 ⟨name, by rw [heq, h]⟩

end Deprecated

section Spellings

/-- The ids of a license, in any case: its name alone, unless that has a suffix or is deprecated
itself, its name with a suffix, and the deprecated ids for one of these. -/
inductive IsIdOf (name : Text) : Text → Prop
  | name {w : Text} : ¬ "-only".toList <:+ name → ¬ "-or-later".toList <:+ name → IsCurrent w →
      Text.lower w = name → IsIdOf name w
  | only {w : Text} : Text.lower w = name ++ "-only".toList → IsIdOf name w
  | orLater {w : Text} : Text.lower w = name ++ "-or-later".toList → IsIdOf name w
  | deprecated {w : Text} {d : String × String × Option String} : d ∈ deprecated →
      Text.lower w = Text.lower d.1.toList → IsIdOf name d.2.1.toList → IsIdOf name w

/-- The spellings of a license: an id of it, or one with a plus sign for later versions. -/
inductive IsSpellingOf (name : Text) : Text → Prop
  | id {w : Text} : w.getLast? ≠ some '+' → IsIdOf name w → IsSpellingOf name w
  | plus {w : Text} : IsIdOf name w → IsSpellingOf name (w ++ ['+'])

/-- The words are spellings of one license. -/
def Respelled (a b : Text) : Prop := ∃ name, IsSpellingOf name a ∧ IsSpellingOf name b

variable {name w a b : Text}

theorem isIdOf_of_current (h : IsCurrent w) :
    IsIdOf (family (String.ofList (Text.lower w))).toList w := by
  unfold family
  cases honly : stripSuffix (String.ofList (Text.lower w)) "-only" with
  | some r =>
    rw [stripSuffix_eq_some, String.toList_ofList] at honly
    exact .only honly
  | none =>
    cases hlater : stripSuffix (String.ofList (Text.lower w)) "-or-later" with
    | some r =>
      rw [stripSuffix_eq_some, String.toList_ofList] at hlater
      exact .orLater hlater
    | none =>
      have hnot {suffix : String} (hnone : stripSuffix (String.ofList (Text.lower w)) suffix = none) :
          ¬ suffix.toList <:+ Text.lower w := by
        rintro ⟨r, hr⟩
        rw [← hr, stripSuffix_append] at hnone
        cases hnone
      change IsIdOf (String.ofList (Text.lower w)).toList w
      rw [String.toList_ofList]
      exact .name (hnot honly) (hnot hlater) h rfl

theorem IsIdOf.family_eq (h : IsIdOf name w) :
    family (unaliased (String.ofList w)).1 = String.ofList name := by
  induction h with
  | name honly hlater hcurrent heq =>
    have hnone {suffix : String} (hnot : ¬ suffix.toList <:+ name) :
        stripSuffix (String.ofList name) suffix = none := by
      rw [Option.eq_none_iff_forall_ne_some]
      intro r hr
      rw [stripSuffix_eq_some, String.toList_ofList] at hr
      exact hnot ⟨r.toList, hr.symm⟩
    rw [unaliased_of_current hcurrent, heq]
    unfold family
    rw [hnone honly, hnone hlater]
    rfl
  | only heq =>
    rw [unaliased_of_current (current_of_suffix (.inl heq)), heq]
    exact family_only name
  | orLater heq =>
    rw [unaliased_of_current (current_of_suffix (.inr heq)), heq]
    exact family_orLater name
  | deprecated hd heq _ ih =>
    rw [unaliased_of_deprecated hd heq]
    rwa [unaliased_of_current (current_of_deprecated hd)] at ih

theorem isIdOf_family (w : Text) : IsIdOf (family (unaliased (String.ofList w)).1).toList w := by
  by_cases hcurrent : IsCurrent w
  · rw [unaliased_of_current hcurrent]
    exact isIdOf_of_current hcurrent
  · simp only [IsCurrent, ne_eq, not_forall, not_not] at hcurrent
    obtain ⟨d, hd, heq⟩ := hcurrent
    rw [unaliased_of_deprecated hd heq.symm]
    exact .deprecated hd heq.symm (isIdOf_of_current (current_of_deprecated hd))

theorem isSpellingOf_licenseFamily (h : IsWord w) : IsSpellingOf (licenseFamily w).toList w := by
  by_cases hplus : w.getLast? = some '+'
  · obtain ⟨base, rfl⟩ := List.getLast?_eq_some_iff.mp hplus
    rw [licenseFamily_plus fun c hc => h c (List.mem_append_left _ hc)]
    exact .plus (isIdOf_family base)
  · rw [licenseFamily_plain h hplus]
    exact .id hplus (isIdOf_family w)

theorem IsSpellingOf.licenseFamily_eq (h : IsSpellingOf name w) (hw : IsWord w) :
    licenseFamily w = String.ofList name := by
  cases h with
  | id hplus hid => rw [licenseFamily_plain hw hplus, hid.family_eq]
  | plus hid => rw [licenseFamily_plus fun c hc => hw c (List.mem_append_left _ hc), hid.family_eq]

/-- Words are of one family exactly when they are spellings of one license. -/
theorem licenseFamily_eq_iff (ha : IsWord a) (hb : IsWord b) :
    licenseFamily a = licenseFamily b ↔ Respelled a b := by
  constructor
  · intro h
    have hb' := isSpellingOf_licenseFamily hb
    rw [← h] at hb'
    exact ⟨_, isSpellingOf_licenseFamily ha, hb'⟩
  · rintro ⟨name, hname, hname'⟩
    rw [hname.licenseFamily_eq ha, hname'.licenseFamily_eq hb]

theorem Respelled.trans {c : Text} (h : Respelled a b) (h' : Respelled b c) (hb : IsWord b) :
    Respelled a c := by
  obtain ⟨name, ha, hname⟩ := h
  obtain ⟨name', hname', hc⟩ := h'
  have hsame := (hname.licenseFamily_eq hb).symm.trans (hname'.licenseFamily_eq hb)
  obtain rfl := String.ofList_injective hsame
  exact ⟨name, ha, hc⟩

end Spellings

section Case

variable {a b : Text}

theorem IsIdOf.congr {name : Text} (h : IsIdOf name a) (heq : Text.lower a = Text.lower b) :
    IsIdOf name b := by
  cases h with
  | name honly hlater hcurrent hname =>
    refine .name honly hlater ?_ (heq ▸ hname)
    unfold IsCurrent
    rw [← heq]
    exact hcurrent
  | only hname => exact .only (heq ▸ hname)
  | orLater hname => exact .orLater (heq ▸ hname)
  | deprecated hd hname hid => exact .deprecated hd (heq ▸ hname) hid

/-- The case of letters does not matter. -/
theorem Respelled.of_lower_eq (ha : IsWord a) (heq : Text.lower a = Text.lower b) :
    Respelled a b := by
  have hlower (w : Text) : (Text.lower w).getLast? = w.getLast?.map Char.toLower := by
    simp [Text.lower]
  have hlast : a.getLast? = some '+' ↔ b.getLast? = some '+' := by
    have hend := congrArg List.getLast? heq
    rw [hlower, hlower] at hend
    have hplus (o : Option Char) : o = some '+' ↔ o.map Char.toLower = some '+' := by
      cases o <;> simp [Text.toLower_eq_plus]
    rw [hplus a.getLast?, hplus b.getLast?, hend]
  refine ⟨_, isSpellingOf_licenseFamily ha, ?_⟩
  cases isSpellingOf_licenseFamily ha with
  | id hplus hid => exact .id (hlast.not.mp hplus) (hid.congr heq)
  | @plus base hid =>
    obtain ⟨base', rfl⟩ := List.getLast?_eq_some_iff.mp (hlast.mp (by simp))
    rw [Text.lower_append, Text.lower_append] at heq
    exact .plus (hid.congr (List.append_cancel_right heq))

end Case

end YaNuget.Policy
