import YaNuget.Data.Text

/-!
# Case mapping

Upper and lower case of Unicode text, beside that of ASCII letters. The Unicode
Character Database gives the mappings of a character; a capital sigma is mapped
by its place in the word.
-/
namespace YaNuget

def isControl (c : Char) : Bool := c.toNat < 0x20 ∨ (0x7f ≤ c.toNat ∧ c.toNat < 0xa0)

/-- What case mapping reads of the Unicode Character Database. -/
structure CaseTable where
  lower : Char → Text
  upper : Char → Text
  cased : Char → Bool
  caseIgnorable : Char → Bool

namespace Text

theorem isAlpha_iff {c : Char} : c.isAlpha ↔ (65 ≤ c.toNat ∧ c.toNat ≤ 90) ∨
    (97 ≤ c.toNat ∧ c.toNat ≤ 122) := by
  have hval : c.toNat = c.val.toNat := rfl
  have hupper : c.isUpper = decide ('A'.val ≤ c.val ∧ c.val ≤ 'Z'.val) := rfl
  have hlower : c.isLower = (decide ('a'.val ≤ c.val) && decide (c.val ≤ 'z'.val)) := rfl
  have halpha : c.isAlpha = (c.isUpper || c.isLower) := rfl
  simp only [halpha, hupper, hlower, Bool.or_eq_true, Bool.and_eq_true, decide_eq_true_eq,
    UInt32.le_iff_toNat_le, hval]
  change (65 ≤ _ ∧ _ ≤ 90) ∨ (97 ≤ _ ∧ _ ≤ 122) ↔ _
  rfl

theorem toUpper_toUpper (c : Char) : c.toUpper.toUpper = c.toUpper := by
  rcases toUpper_cases c with ⟨h₁, h₂, h₃⟩ | ⟨-, heq⟩
  · rcases toUpper_cases c.toUpper with ⟨h, -, -⟩ | ⟨-, heq⟩
    · omega
    · exact heq
  · rw [heq, heq]

theorem toLower_toUpper (c : Char) : c.toUpper.toLower = c.toLower := by
  rcases toUpper_cases c with ⟨h₁, h₂, h₃⟩ | ⟨-, heq⟩
  · rcases toLower_cases c.toUpper with ⟨-, -, h⟩ | ⟨h, -⟩
    · rcases toLower_cases c with ⟨-, h', -⟩ | ⟨-, heq⟩
      · omega
      · rw [heq]
        exact Char.toNat_inj.mp (by omega)
    · omega
  · rw [heq]

end Text

namespace CaseTable

variable (table : CaseTable)

def ignorableThenCased (t : Text) : Bool :=
  (t.dropWhile table.caseIgnorable).head?.any table.cased

def lowerSigma (before rest : Text) : Char :=
  if table.ignorableThenCased before && !table.ignorableThenCased rest then 'ς' else 'σ'

def lowerAfter : Text → Text → Text
  | _, [] => []
  | before, c :: rest =>
    (if c = 'Σ' then [table.lowerSigma before rest] else table.lower c) ++
      lowerAfter (c :: before) rest

/-- The lower case of a text. -/
def toLowercase (t : Text) : Text := table.lowerAfter [] t

def toUppercase (t : Text) : Text := t.flatMap table.upper

/-- What the database says of ASCII: its letters have case, are mapped as ASCII maps them, and
those of the other case are in no mapping. -/
structure Lawful : Prop where
  lower_ascii : ∀ c : Char, c.toNat < 128 → table.lower c = [c.toLower]
  upper_ascii : ∀ c : Char, c.toNat < 128 → table.upper c = [c.toUpper]
  lower_lower : ∀ c, ∀ x ∈ table.lower c, x.toLower = x
  upper_upper : ∀ c, ∀ x ∈ table.upper c, x.toUpper = x
  cased_letter : ∀ c : Char, c.isAlpha → table.cased c = true
  letter_counts : ∀ c : Char, c.isAlpha → table.caseIgnorable c = false

namespace Lawful

variable {table} (h : table.Lawful) {a b t : Text}
include h

theorem cased_toLower (c : Char) : table.cased c.toLower = table.cased c := by
  rcases Text.toLower_cases c with ⟨h₁, h₂, h₃⟩ | ⟨-, heq⟩
  · have hc : c.isAlpha := Text.isAlpha_iff.mpr (by omega)
    have hlower : c.toLower.isAlpha := Text.isAlpha_iff.mpr (by omega)
    rw [h.cased_letter _ hc, h.cased_letter _ hlower]
  · rw [heq]

theorem caseIgnorable_toLower (c : Char) :
    table.caseIgnorable c.toLower = table.caseIgnorable c := by
  rcases Text.toLower_cases c with ⟨h₁, h₂, h₃⟩ | ⟨-, heq⟩
  · have hc : c.isAlpha := Text.isAlpha_iff.mpr (by omega)
    have hlower : c.toLower.isAlpha := Text.isAlpha_iff.mpr (by omega)
    rw [h.letter_counts _ hc, h.letter_counts _ hlower]
  · rw [heq]

theorem ignorableThenCased_lower (t : Text) :
    table.ignorableThenCased (Text.lower t) = table.ignorableThenCased t := by
  have hignorable : table.caseIgnorable ∘ Char.toLower = table.caseIgnorable :=
    funext h.caseIgnorable_toLower
  unfold ignorableThenCased Text.lower
  rw [List.dropWhile_map, hignorable, List.head?_map, Option.any_map]
  exact congrArg (fun f => Option.any f _) (funext h.cased_toLower)

theorem lower_toLower (c : Char) : table.lower c.toLower = table.lower c := by
  rcases Text.toLower_cases c with ⟨h₁, h₂, h₃⟩ | ⟨-, heq⟩
  · rw [h.lower_ascii c (by omega), h.lower_ascii _ (by omega), Text.toLower_toLower]
  · rw [heq]

theorem upper_toUpper (c : Char) : table.upper c.toUpper = table.upper c := by
  rcases Text.toUpper_cases c with ⟨h₁, h₂, h₃⟩ | ⟨-, heq⟩
  · rw [h.upper_ascii c (by omega), h.upper_ascii _ (by omega), Text.toUpper_toUpper]
  · rw [heq]

theorem lowerAfter_lower (before t : Text) :
    table.lowerAfter (Text.lower before) (Text.lower t) = table.lowerAfter before t := by
  induction t generalizing before with
  | nil => rfl
  | cons c t ih =>
    have hsigma : c.toLower = 'Σ' ↔ c = 'Σ' := by
      rcases Text.toLower_cases c with ⟨h₁, h₂, h₃⟩ | ⟨-, heq⟩
      · have hcapital : 'Σ'.toNat = 931 := rfl
        constructor
        · intro heq
          rw [heq] at h₃
          omega
        · intro heq
          rw [heq] at h₂
          omega
      · rw [heq]
    have hcons : Text.lower (c :: t) = c.toLower :: Text.lower t := rfl
    have hbefore : c.toLower :: Text.lower before = Text.lower (c :: before) := rfl
    have hlower : table.lowerSigma (Text.lower before) (Text.lower t) =
        table.lowerSigma before t := by
      unfold lowerSigma
      rw [h.ignorableThenCased_lower, h.ignorableThenCased_lower]
    rw [hcons, lowerAfter, lowerAfter, hbefore, ih, hlower, h.lower_toLower]
    simp only [hsigma]

theorem toLowercase_lower (t : Text) : table.toLowercase (Text.lower t) = table.toLowercase t :=
  h.lowerAfter_lower [] t

theorem toUppercase_toUpper (t : Text) :
    table.toUppercase (t.map Char.toUpper) = table.toUppercase t := by
  induction t with
  | nil => rfl
  | cons c t ih =>
    unfold toUppercase at ih ⊢
    rw [List.map_cons, List.flatMap_cons, List.flatMap_cons, h.upper_toUpper, ih]

theorem toLower_of_mem_lowerAfter {x : Char} (before t : Text)
    (hx : x ∈ table.lowerAfter before t) : x.toLower = x := by
  induction t generalizing before with
  | nil => cases hx
  | cons c t ih =>
    rcases List.mem_append.mp hx with hx | hx
    · split_ifs at hx
      · rcases List.mem_singleton.mp hx with rfl
        unfold lowerSigma
        split_ifs <;> decide
      · exact h.lower_lower c x hx
    · exact ih _ hx

theorem lower_toLowercase (t : Text) : Text.lower (table.toLowercase t) = table.toLowercase t := by
  have hsame : ∀ x ∈ table.toLowercase t, x.toLower = id x :=
    fun _ hx => h.toLower_of_mem_lowerAfter [] t hx
  exact (List.map_congr_left hsame).trans (List.map_id _)

theorem toUpper_toUppercase (t : Text) :
    (table.toUppercase t).map Char.toUpper = table.toUppercase t := by
  have hsame : ∀ x ∈ table.toUppercase t, x.toUpper = id x := by
    intro x hx
    obtain ⟨c, -, hc⟩ := List.mem_flatMap.mp hx
    exact h.upper_upper c x hc
  exact (List.map_congr_left hsame).trans (List.map_id _)

theorem toLowercase_congr (heq : Text.lower a = Text.lower b) :
    table.toLowercase a = table.toLowercase b := by
  rw [← h.toLowercase_lower a, heq, h.toLowercase_lower]

theorem toUppercase_congr (heq : a.map Char.toUpper = b.map Char.toUpper) :
    table.toUppercase a = table.toUppercase b := by
  rw [← h.toUppercase_toUpper a, heq, h.toUppercase_toUpper]

theorem lowerAfter_of_ascii (ht : t.isAscii) (before : Text) :
    table.lowerAfter before t = Text.lower t := by
  induction t generalizing before with
  | nil => rfl
  | cons c t ih =>
    obtain ⟨hc, hrest⟩ : c.toNat < 128 ∧ Text.isAscii t := by simpa [Text.isAscii] using ht
    have hsigma : c ≠ 'Σ' := by
      rintro rfl
      revert hc
      decide
    rw [lowerAfter, ih hrest, if_neg hsigma, h.lower_ascii c hc]
    rfl

theorem toLowercase_of_ascii (ht : t.isAscii) : table.toLowercase t = Text.lower t :=
  h.lowerAfter_of_ascii ht []

end Lawful

/-- The table of the first 256 characters; the others are taken to be without case. -/
def latin1 : CaseTable where
  lower c := if 'À' ≤ c ∧ c ≤ 'Þ' ∧ c ≠ '×' then [Char.ofNat (c.toNat + 32)] else [c.toLower]
  upper c :=
    if c = 'ß' then ['S', 'S']
    else if c = 'µ' then ['Μ']
    else if c = 'ÿ' then ['Ÿ']
    else if 'à' ≤ c ∧ c ≤ 'þ' ∧ c ≠ '÷' then [Char.ofNat (c.toNat - 32)]
    else [c.toUpper]
  cased c := c.isAlpha || c ∈ ['ª', 'µ', 'º'] || ('À' ≤ c ∧ c ≤ 'ÿ' ∧ c ≠ '×' ∧ c ≠ '÷')
  caseIgnorable c :=
    c.toNat ∈ [0x27, 0x2e, 0x3a, 0x5e, 0x60, 0xa8, 0xad, 0xaf, 0xb4, 0xb7, 0xb8]

theorem toNat_ofNat {n : ℕ} (h : n < 0xd800) : (Char.ofNat n).toNat = n := by
  unfold Char.ofNat
  rw [dif_pos (Or.inl h)]
  rfl

theorem lawful_latin1 : latin1.Lawful where
  lower_ascii c hc := by
    have hsmall : ¬ ('À' ≤ c ∧ c ≤ 'Þ' ∧ c ≠ '×') := by
      rintro ⟨h, -⟩
      have hle : 'À'.toNat ≤ c.toNat := h
      exact absurd hc (not_lt.mpr (le_trans (by decide) hle))
    simp only [latin1, hsmall, if_false]
  upper_ascii c hc := by
    have hne {d : Char} (hd : 128 ≤ d.toNat) : c ≠ d := by
      rintro rfl
      omega
    have hsmall : ¬ ('à' ≤ c ∧ c ≤ 'þ' ∧ c ≠ '÷') := by
      rintro ⟨h, -⟩
      have hle : 'à'.toNat ≤ c.toNat := h
      exact absurd hc (not_lt.mpr (le_trans (by decide) hle))
    simp only [latin1, hsmall, hne (d := 'ß') (by decide), hne (d := 'µ') (by decide),
      hne (d := 'ÿ') (by decide), if_false]
  lower_lower c x hx := by
    simp only [latin1] at hx
    split_ifs at hx with h
    · obtain ⟨h₁, h₂, -⟩ := h
      have hge : 192 ≤ c.toNat := h₁
      have hle : c.toNat ≤ 222 := h₂
      have hnat : x.toNat = c.toNat + 32 := by
        rw [List.mem_singleton.mp hx, toNat_ofNat (by omega)]
      rcases Text.toLower_cases x with ⟨h₁, h₂, -⟩ | ⟨-, heq⟩
      · omega
      · exact heq
    · rw [List.mem_singleton.mp hx, Text.toLower_toLower]
  upper_upper c x hx := by
    simp only [latin1] at hx
    split_ifs at hx with hsharp hmicro hy h
    · have hS : x = 'S' := by simpa using hx
      rw [hS]
      rfl
    · rw [List.mem_singleton.mp hx]
      rfl
    · rw [List.mem_singleton.mp hx]
      rfl
    · obtain ⟨h₁, h₂, -⟩ := h
      have hge : 224 ≤ c.toNat := h₁
      have hle : c.toNat ≤ 254 := h₂
      have hnat : x.toNat = c.toNat - 32 := by
        rw [List.mem_singleton.mp hx, toNat_ofNat (by omega)]
      rcases Text.toUpper_cases x with ⟨h₁, h₂, -⟩ | ⟨-, heq⟩
      · omega
      · exact heq
    · rw [List.mem_singleton.mp hx, Text.toUpper_toUpper]
  cased_letter c hc := by simp [latin1, hc]
  letter_counts c hc := by
    have hletter := Text.isAlpha_iff.mp hc
    simp only [latin1, List.mem_cons, List.not_mem_nil, or_false, decide_eq_false_iff_not]
    omega

end CaseTable

end YaNuget
