import YaNuget.Versions.NuGetVersion

/-!
# The text of a version

The full string of a version, and so its normalized string, comes apart at the
separators it was joined with.
-/
namespace YaNuget.Versions

section Cut

variable {sep : Char} {s a b : Text}

theorem cutAt_of_not_mem (h : sep ∉ s) : cutAt sep s = (s, none) := by
  simp [cutAt, Text.splitOnce_eq_none.mpr h]

theorem cutAt_append (h : sep ∉ a) : cutAt sep (a ++ sep :: b) = (a, some b) := by
  simp [cutAt, Text.splitOnce_append h]

end Cut

/-- An identifier of the label, leading zeros or not. -/
def IsIdentifier (id : Text) : Prop := id ≠ [] ∧ id.all isPreChar

theorem toNat_of_isPreChar {c : Char} (h : isPreChar c) :
    (48 ≤ c.toNat ∧ c.toNat ≤ 57) ∨ (65 ≤ c.toNat ∧ c.toNat ≤ 90) ∨
      (97 ≤ c.toNat ∧ c.toNat ≤ 122) ∨ c.toNat = 45 := by
  have hupper : c.isUpper = decide ('A'.val ≤ c.val ∧ c.val ≤ 'Z'.val) := rfl
  have hlower : c.isLower = (decide ('a'.val ≤ c.val) && decide (c.val ≤ 'z'.val)) := rfl
  have halphanum : c.isAlphanum = ((c.isUpper || c.isLower) || c.isDigit) := rfl
  simp only [isPreChar, halphanum, hupper, hlower, Bool.or_eq_true, Bool.and_eq_true,
    decide_eq_true_eq, beq_iff_eq, UInt32.le_iff_toNat_le, Text.isDigit_iff] at h
  rcases h with ((h | h) | h) | rfl
  · exact Or.inr (Or.inl h)
  · exact Or.inr (Or.inr (Or.inl h))
  · exact Or.inl h
  · exact Or.inr (Or.inr (Or.inr rfl))

theorem isPreChar_toLower {c : Char} (h : isPreChar c) : isPreChar c.toLower := by
  rcases Text.toLower_cases c with ⟨h₁, h₂, h₃⟩ | ⟨-, heq⟩
  · have hlower : c.toLower.isLower := by
      change (decide ('a'.val ≤ c.toLower.val) && decide (c.toLower.val ≤ 'z'.val)) = true
      simp only [Bool.and_eq_true, decide_eq_true_eq, UInt32.le_iff_toNat_le]
      change 97 ≤ c.toLower.toNat ∧ c.toLower.toNat ≤ 122
      omega
    have halphanum : c.toLower.isAlphanum =
        ((c.toLower.isUpper || c.toLower.isLower) || c.toLower.isDigit) := rfl
    simp [isPreChar, halphanum, hlower]
  · rw [heq]
    exact h

theorem isPreChar_of_isDigit {c : Char} (h : c.isDigit) : isPreChar c := by
  have halphanum : c.isAlphanum = ((c.isUpper || c.isLower) || c.isDigit) := rfl
  simp [isPreChar, halphanum, h]

theorem IsIdentifier.lower {id : Text} (h : IsIdentifier id) : IsIdentifier (Text.lower id) := by
  constructor
  · simpa [Text.lower] using h.1
  · simp only [Text.lower, List.all_map, List.all_eq_true, Function.comp_apply]
    intro c hc
    exact isPreChar_toLower (List.all_eq_true.mp h.2 c hc)

theorem isIdentifier_of_valid {zeros : Bool} {id : Text} (h : validIdentifier zeros id) :
    IsIdentifier id := by
  simp only [validIdentifier, Bool.and_eq_true] at h
  exact ⟨by simpa using h.1.1, h.1.2⟩

theorem validIdentifier_lower {zeros : Bool} {id : Text} (h : validIdentifier zeros id) :
    validIdentifier zeros (Text.lower id) := by
  have hlower := (isIdentifier_of_valid h).lower
  by_cases hdigits : id.all Char.isDigit
  · rw [Text.lower_of_digits hdigits]
    exact h
  · have hdigits' : (Text.lower id).all Char.isDigit = false := by
      rw [Text.all_isDigit_lower]
      simpa using hdigits
    simp [validIdentifier, hlower.1, hlower.2, hdigits']

/-- A character of a core, of a label or of metadata. -/
def IsWritten (c : Char) : Prop := c = '.' ∨ isPreChar c

instance (c : Char) : Decidable (IsWritten c) := inferInstanceAs (Decidable (_ ∨ _))

theorem isWritten_of_label {ids : List Text} (hids : ∀ id ∈ ids, IsIdentifier id) {c : Char}
    (hc : c ∈ ['.'].intercalate ids) : IsWritten c := by
  rcases Text.mem_intercalate hc with rfl | ⟨id, hid, hmem⟩
  · exact Or.inl rfl
  · exact Or.inr (List.all_eq_true.mp (hids id hid).2 c hmem)

theorem IsWritten.not_whitespace {c : Char} (h : IsWritten c) : isWhitespace c = false := by
  have hrange : c.toNat = 46 ∨ (48 ≤ c.toNat ∧ c.toNat ≤ 57) ∨ (65 ≤ c.toNat ∧ c.toNat ≤ 90) ∨
      (97 ≤ c.toNat ∧ c.toNat ≤ 122) ∨ c.toNat = 45 := by
    rcases h with rfl | h
    · exact Or.inl rfl
    · exact Or.inr (toNat_of_isPreChar h)
  unfold isWhitespace
  simp only [decide_eq_false_iff_not]
  omega

theorem splitOn_label {ids : List Text} (hids : ∀ id ∈ ids, IsIdentifier id) (hne : ids ≠ []) :
    (['.'].intercalate ids).splitOn '.' = ids := by
  refine List.splitOn_intercalate '.' (fun id hid hdot => ?_) hne
  have hchar := List.all_eq_true.mp (hids id hid).2 '.' hdot
  revert hchar
  decide

theorem isIdentifier_decimal (n : ℕ) : IsIdentifier (Text.decimal n) := by
  refine ⟨Text.decimal_ne_nil n, ?_⟩
  rw [List.all_eq_true]
  exact fun c hc => isPreChar_of_isDigit (Text.isDigit_of_mem_decimal hc)

namespace NuGetVersion

/-- The numbers of the core that are written. -/
def components (v : NuGetVersion) : List ℕ :=
  if v.revision > 0 then [v.major, v.minor, v.patch, v.revision]
  else [v.major, v.minor, v.patch]

theorem coreString_eq (v : NuGetVersion) :
    v.coreString = ['.'].intercalate (v.components.map Text.decimal) := by
  unfold coreString components
  split_ifs <;> rfl

/-- The text between the core and the metadata. -/
def label (v : NuGetVersion) : Text :=
  if v.pre.isEmpty then [] else '-' :: ['.'].intercalate v.pre

def canonical (v : NuGetVersion) : NuGetVersion :=
  { v with pre := v.pre.map Text.lower, metadata := none }

theorem toFullString_canonical (v : NuGetVersion) : v.canonical.toFullString = v.normalized := by
  have hlabel : Text.lower (['.'].intercalate v.pre) =
      ['.'].intercalate (v.pre.map Text.lower) := Text.lower_intercalate (by decide) v.pre
  simp only [toFullString, canonical, normalized, List.append_nil, hlabel, List.isEmpty_map]
  rfl

theorem normalized_canonical (v : NuGetVersion) : v.canonical.normalized = v.normalized := by
  rw [← toFullString_canonical, ← toFullString_canonical]
  simp [canonical, Function.comp_def, Text.lower_lower]

section Cut

variable {v : NuGetVersion}

theorem isIdentifier_of_components {id : Text} (hid : id ∈ v.components.map Text.decimal) :
    IsIdentifier id := by
  obtain ⟨n, -, rfl⟩ := List.mem_map.mp hid
  exact isIdentifier_decimal n

theorem mem_coreString {c : Char} (hc : c ∈ v.coreString) : c = '.' ∨ c.isDigit := by
  rw [coreString_eq] at hc
  rcases Text.mem_intercalate hc with h | ⟨id, hid, hmem⟩
  · exact Or.inl h
  · obtain ⟨n, -, rfl⟩ := List.mem_map.mp hid
    exact Or.inr (Text.isDigit_of_mem_decimal hmem)

theorem coreString_ne_nil : v.coreString ≠ [] := by
  unfold coreString
  split_ifs <;> simp [List.intercalate_cons_cons]

theorem head?_toFullString {c : Char} (hc : v.toFullString.head? = some c) :
    c = '.' ∨ c.isDigit := by
  cases hcore : v.coreString with
  | nil => exact (coreString_ne_nil hcore).elim
  | cons c' rest =>
    have hhead : c' = c := by simpa [toFullString, hcore] using hc
    apply mem_coreString (v := v)
    rw [hcore, hhead]
    exact List.mem_cons_self

theorem isWritten_coreString {c : Char} (hc : c ∈ v.coreString) : IsWritten c :=
  (mem_coreString hc).imp_right isPreChar_of_isDigit

theorem isWritten_labelled (hpre : ∀ id ∈ v.pre, IsIdentifier id) {c : Char}
    (hc : c ∈ v.coreString ++ v.label) : IsWritten c := by
  rcases List.mem_append.mp hc with hc | hc
  · exact isWritten_coreString hc
  · unfold label at hc
    split_ifs at hc
    · simp at hc
    · rcases List.mem_cons.mp hc with rfl | hc
      · exact Or.inr (by decide)
      · exact isWritten_of_label hpre hc

theorem cutAt_toFullString (hpre : ∀ id ∈ v.pre, IsIdentifier id) :
    cutAt '+' v.toFullString = (v.coreString ++ v.label, v.metadata) := by
  have hplus : '+' ∉ v.coreString ++ v.label := by
    intro hmem
    have hwritten := isWritten_labelled hpre hmem
    revert hwritten
    decide
  cases hmetadata : v.metadata with
  | none =>
    have hfull : v.toFullString = v.coreString ++ v.label := by
      simp [toFullString, hmetadata, label]
    rw [hfull, cutAt_of_not_mem hplus]
  | some metadata =>
    have hfull : v.toFullString = (v.coreString ++ v.label) ++ '+' :: metadata := by
      simp [toFullString, hmetadata, label]
    rw [hfull, cutAt_append hplus]

/-- What is left comes apart at the label, and that into its identifiers. -/
theorem cutAt_labelled (hpre : ∀ id ∈ v.pre, IsIdentifier id) :
    ∃ preStr, cutAt '-' (v.coreString ++ v.label) = (v.coreString, preStr) ∧
      preStr.elim [] (·.splitOn '.') = v.pre ∧
      ∀ s ∈ preStr, s.splitOn '.' = v.pre := by
  have hdash : '-' ∉ v.coreString := by
    intro hmem
    have hdigit := mem_coreString hmem
    revert hdigit
    decide
  by_cases hnil : v.pre = []
  · refine ⟨none, ?_, by simp [hnil], by simp⟩
    simp [label, hnil, cutAt_of_not_mem hdash]
  · have hlabel : v.label = '-' :: ['.'].intercalate v.pre := by
      simp [label, hnil]
    have hsplit := splitOn_label hpre hnil
    refine ⟨some (['.'].intercalate v.pre), ?_, hsplit, by simpa using hsplit⟩
    rw [hlabel, cutAt_append hdash]

theorem parseCore_coreString {component : Text → Option ℕ}
    (h : ∀ n ∈ v.components, component (Text.decimal n) = some n) :
    parseCore component v.coreString = some v.core := by
  have hsplit : v.coreString.splitOn '.' = v.components.map Text.decimal := by
    rw [coreString_eq]
    refine splitOn_label (fun id hid => isIdentifier_of_components hid) ?_
    unfold components
    split_ifs <;> simp
  unfold components at h hsplit
  split_ifs at h hsplit with hrevision
  · simp only [List.mem_cons, List.not_mem_nil, or_false, forall_eq_or_imp, forall_eq] at h
    simp [parseCore, hsplit, h.1, h.2.1, h.2.2.1, h.2.2.2, core]
  · simp only [List.mem_cons, List.not_mem_nil, or_false, forall_eq_or_imp, forall_eq] at h
    have hzero : v.revision = 0 := by omega
    simp [parseCore, hsplit, h.1, h.2.1, h.2.2, core, hzero]

theorem trim_toFullString (hpre : ∀ id ∈ v.pre, IsIdentifier id)
    (hmetadata : ∀ m ∈ v.metadata, ∀ c ∈ m, IsWritten c) : trim v.toFullString = v.toFullString := by
  refine Text.trim_eq_self fun c hc => ?_
  rcases List.mem_append.mp hc with hc | hc
  · exact (isWritten_labelled hpre hc).not_whitespace
  · cases hm : v.metadata with
    | none => simp [hm] at hc
    | some m =>
      simp only [hm, List.mem_cons] at hc
      rcases hc with rfl | hc
      · decide
      · exact (hmetadata m hm c hc).not_whitespace

end Cut

end NuGetVersion

end YaNuget.Versions
