import Mathlib.Algebra.Group.Nat.Even
import Mathlib.Data.Nat.Notation
import Mathlib.Data.List.Basic
import Mathlib.Data.List.Induction
import Mathlib.Tactic.SplitIfs

/-!
# Text

Strings as lists of characters: trimming, splitting at a separator, lower case
of ASCII letters, and decimal numbers as text.
-/
namespace YaNuget

/-- The characters of Unicode's property `White_Space`. -/
def isWhitespace (c : Char) : Bool :=
  let n := c.toNat
  (9 ≤ n ∧ n ≤ 13) ∨ n = 0x20 ∨ n = 0x85 ∨ n = 0xa0 ∨ n = 0x1680 ∨ (0x2000 ≤ n ∧ n ≤ 0x200a) ∨
    n = 0x2028 ∨ n = 0x2029 ∨ n = 0x202f ∨ n = 0x205f ∨ n = 0x3000

def trim (text : List Char) : List Char :=
  ((text.dropWhile isWhitespace).reverse.dropWhile isWhitespace).reverse

abbrev Text := List Char

instance lawfulBEqText : LawfulBEq Text := inferInstance

namespace Text

def byteLen : Text → ℕ
  | [] => 0
  | c :: t => c.utf8Size + byteLen t

def lower (t : Text) : Text := t.map Char.toLower

def isAscii (t : Text) : Bool := t.all fun c => c.toNat < 128

def splitOnce (sep : Char) : Text → Option (Text × Text)
  | [] => none
  | c :: rest =>
    if c = sep then some ([], rest)
    else (splitOnce sep rest).map fun parts => (c :: parts.1, parts.2)

/-- The number that decimal digits stand for. -/
def value (digits : Text) : ℕ := Nat.ofDigitChars 10 digits 0

def decimal (n : ℕ) : Text := Nat.toDigits 10 n

/-- A `u64` in decimal digits, with or without a plus sign. -/
def parseU64 (t : Text) : Option ℕ :=
  let digits := if t.head? = some '+' then t.tail else t
  if digits.isEmpty || !digits.all Char.isDigit then none
  else if value digits < 2 ^ 64 then some (value digits)
  else none

section Trim

theorem dropWhile_eq_self {t : Text} {p : Char → Bool} (h : ∀ c ∈ t, p c = false) :
    t.dropWhile p = t := by
  cases t with
  | nil => rfl
  | cons c rest => simp [h c List.mem_cons_self]

theorem trim_eq_self {t : Text} (h : ∀ c ∈ t, isWhitespace c = false) : trim t = t := by
  unfold trim
  rw [dropWhile_eq_self h, dropWhile_eq_self (by simpa using h), List.reverse_reverse]

theorem trim_space {t : Text} (h : ∀ c ∈ t, isWhitespace c = false) : trim (' ' :: t) = t := by
  have hspace : isWhitespace ' ' = true := by decide
  have hdrop : (' ' :: t).dropWhile isWhitespace = t := by
    rw [List.dropWhile_cons_of_pos hspace]
    exact dropWhile_eq_self h
  unfold trim
  rw [hdrop, dropWhile_eq_self (by simpa using h), List.reverse_reverse]

end Trim

section Split

variable {sep : Char} {t a b : Text}

theorem splitOnce_eq_none : splitOnce sep t = none ↔ sep ∉ t := by
  induction t with
  | nil => simp [splitOnce]
  | cons c rest ih =>
    by_cases h : c = sep
    · simp [splitOnce, h]
    · simp [splitOnce, h, ih, Ne.symm h]

theorem splitOnce_append (h : sep ∉ a) : splitOnce sep (a ++ sep :: b) = some (a, b) := by
  induction a with
  | nil => simp [splitOnce]
  | cons c rest ih =>
    rw [List.mem_cons, not_or] at h
    simp [splitOnce, Ne.symm h.1, ih h.2]

theorem splitOnce_eq_some (h : splitOnce sep t = some (a, b)) : t = a ++ sep :: b ∧ sep ∉ a := by
  induction t generalizing a with
  | nil => simp [splitOnce] at h
  | cons c rest ih =>
    by_cases hc : c = sep
    · simp only [splitOnce, hc, if_true, Option.some.injEq, Prod.mk.injEq] at h
      obtain ⟨rfl, rfl⟩ := h
      simp [hc]
    · simp only [splitOnce, hc, if_false, Option.map_eq_some_iff, Prod.mk.injEq] at h
      obtain ⟨⟨a', b'⟩, hrest, rfl, rfl⟩ := h
      obtain ⟨rfl, hnot⟩ := ih hrest
      simp [hnot, Ne.symm hc]

/-- What is joined with separators consists of these and of its parts. -/
theorem mem_intercalate {c : Char} {ts : List Text} (h : c ∈ [sep].intercalate ts) :
    c = sep ∨ ∃ t ∈ ts, c ∈ t := by
  induction ts with
  | nil => simp at h
  | cons t ts ih =>
    cases ts with
    | nil =>
      rw [List.intercalate_singleton] at h
      exact Or.inr ⟨t, List.mem_cons_self, h⟩
    | cons t' ts =>
      rw [List.intercalate_cons_cons, List.mem_append, List.mem_append] at h
      rcases h with (h | h) | h
      · exact Or.inr ⟨t, List.mem_cons_self, h⟩
      · exact Or.inl (List.mem_singleton.mp h)
      · exact (ih h).imp_right fun ⟨t', ht', hc⟩ => ⟨t', List.mem_cons_of_mem t ht', hc⟩

end Split

section Decimal

theorem isDigit_of_mem_decimal {n : ℕ} {c : Char} (h : c ∈ decimal n) : c.isDigit :=
  Nat.isDigit_of_mem_toDigits (by decide) (by decide) h

theorem decimal_ne_nil (n : ℕ) : decimal n ≠ [] := Nat.toDigits_ne_nil

@[simp]
theorem value_decimal (n : ℕ) : value (decimal n) = n := Nat.ofDigitChars_ten_toDigits

theorem decimal_injective : Function.Injective decimal := Function.LeftInverse.injective value_decimal

theorem length_decimal_le {n k : ℕ} (hk : 0 < k) (h : n < 10 ^ k) : (decimal n).length ≤ k :=
  (Nat.length_toDigits_le_iff (by decide) hk).mpr h

theorem isDigit_iff {c : Char} : c.isDigit ↔ 48 ≤ c.toNat ∧ c.toNat ≤ 57 := by
  simp [Char.isDigit, UInt32.le_iff_toNat_le]

/-- A number other than zero is written without leading zeros. -/
theorem dropWhile_decimal {n : ℕ} (hn : n ≠ 0) : (decimal n).dropWhile (· = '0') = decimal n := by
  unfold decimal
  induction n using Nat.strong_induction_on with
  | h n ih =>
    by_cases h : n < 10
    · rw [Nat.toDigits_of_lt_base h]
      have hne : n.digitChar ≠ '0' := by
        intro heq
        have hval := Nat.toNat_digitChar_sub_48_of_lt_ten h
        rw [heq] at hval
        exact hn (by simpa using hval.symm)
      simp [hne]
    · rw [Nat.toDigits_of_base_le (by decide) (by omega)]
      have hrest := ih (n / 10) (by omega) (by omega)
      cases hdigits : Nat.toDigits 10 (n / 10) with
      | nil => exact (Nat.toDigits_ne_nil hdigits).elim
      | cons c rest =>
        rw [hdigits] at hrest
        have hc : c ≠ '0' := by
          intro heq
          have hlength := congrArg List.length hrest
          have hle := (List.dropWhile_suffix (l := rest) fun x => decide (x = '0')).length_le
          simp [heq] at hlength
          omega
        simp [hc]

theorem all_isDigit_decimal (n : ℕ) : (decimal n).all Char.isDigit := by
  rw [List.all_eq_true]
  exact fun c hc => isDigit_of_mem_decimal hc

theorem parseU64_of_digits {t : Text} (hne : t ≠ []) (h : t.all Char.isDigit) :
    parseU64 t = if value t < 2 ^ 64 then some (value t) else none := by
  have hplus : t.head? ≠ some '+' := by
    intro heq
    have hmem : '+' ∈ t := List.mem_of_head? heq
    simpa using List.all_eq_true.mp h '+' hmem
  simp [parseU64, hplus, h, hne]

theorem parseU64_eq_none {t : Text} (hplus : '+' ∉ t) (h : t.all Char.isDigit = false) :
    parseU64 t = none := by
  have hhead : t.head? ≠ some '+' := fun heq => hplus (List.mem_of_head? heq)
  simp [parseU64, hhead, h]

theorem value_append_digit (t : Text) (c : Char) :
    value (t ++ [c]) = 10 * value t + (c.toNat - 48) := by
  unfold value
  rw [Nat.ofDigitChars_append, Nat.ofDigitChars_cons, Nat.ofDigitChars_nil]
  rfl

/-- Digits without leading zeros are how their number is written. -/
theorem decimal_value {c : Char} {t : Text} (h : (c :: t).all Char.isDigit) (hc : c ≠ '0') :
    decimal (value (c :: t)) = c :: t ∧ 0 < value (c :: t) := by
  have digit {d : Char} (hd : d.isDigit) :
      d.toNat - 48 < 10 ∧ Nat.toDigits 10 (d.toNat - 48) = [d] := by
    have hd := isDigit_iff.mp hd
    have hlt : d.toNat - 48 < 10 := by omega
    refine ⟨hlt, ?_⟩
    rw [Nat.toDigits_of_lt_base hlt, List.cons.injEq]
    refine ⟨?_, rfl⟩
    apply Char.toNat_inj.mp
    rw [Nat.toNat_digitChar_of_lt_ten hlt]
    omega
  induction t using List.reverseRecOn with
  | nil =>
    have hc' : c.isDigit := by simpa using h
    have hpos : c.toNat - 48 ≠ 0 := by
      intro hzero
      apply hc
      apply Char.toNat_inj.mp
      have := isDigit_iff.mp hc'
      change c.toNat = 48
      omega
    have hvalue : value [c] = c.toNat - 48 := by
      simpa [value] using value_append_digit [] c
    rw [hvalue]
    exact ⟨(digit hc').2, Nat.pos_of_ne_zero hpos⟩
  | append_singleton t d ih =>
    have hall : (c :: t).all Char.isDigit ∧ d.isDigit := by
      simpa [and_assoc] using h
    obtain ⟨hdecimal, hpos⟩ := ih hall.1
    obtain ⟨hlt, hd⟩ := digit hall.2
    have hvalue : value (c :: (t ++ [d])) = 10 * value (c :: t) + (d.toNat - 48) :=
      value_append_digit (c :: t) d
    rw [hvalue]
    constructor
    · unfold decimal at hdecimal ⊢
      rw [← Nat.toDigits_append_toDigits (by decide) hpos hlt, hdecimal, hd]
      rfl
    · omega

theorem value_cons (c : Char) (t : Text) :
    value (c :: t) = 10 ^ t.length * (c.toNat - 48) + value t := by
  unfold value
  rw [Nat.ofDigitChars_cons, Nat.ofDigitChars_eq_ofDigitChars_zero]
  simp

theorem value_lt {t : Text} (h : t.all Char.isDigit) : value t < 10 ^ t.length := by
  induction t with
  | nil => decide
  | cons c t ih =>
    simp only [List.all_cons, Bool.and_eq_true] at h
    have hrest := ih h.2
    have hc : c.toNat - 48 ≤ 9 := by
      have := isDigit_iff.mp h.1
      omega
    have hprod := Nat.mul_le_mul_left (10 ^ t.length) hc
    rw [value_cons, List.length_cons, pow_succ]
    omega

/-- Of two numbers without leading zeros the longer one is greater. -/
theorem value_lt_value {a t : Text} {c : Char} (ha : a.all Char.isDigit) (hc : c.isDigit)
    (hzero : c ≠ '0') (h : a.length < (c :: t).length) : value a < value (c :: t) := by
  have hpos : 1 ≤ c.toNat - 48 := by
    have hne : c.toNat ≠ 48 := fun heq => hzero (Char.toNat_inj.mp heq)
    have := isDigit_iff.mp hc
    omega
  have hprod := Nat.mul_le_mul_left (10 ^ t.length) hpos
  have hpow : 10 ^ a.length ≤ 10 ^ t.length := by
    apply Nat.pow_le_pow_right (by decide)
    exact Nat.le_of_lt_succ (by simpa using h)
  have := value_lt ha
  rw [value_cons]
  omega

theorem compare_char (c d : Char) : compare c d = compare c.toNat d.toNat := by
  rw [Nat.compare_eq_ite_lt]
  change compareOfLessAndEq c d = _
  unfold compareOfLessAndEq
  have hlt : c < d ↔ c.toNat < d.toNat := UInt32.lt_iff_toNat_lt
  have heq : c = d ↔ c.toNat = d.toNat := Char.toNat_inj.symm
  simp only [hlt, heq]
  split_ifs <;> first | rfl | omega

theorem compare_leading {base x y m n : ℕ} (hm : m < base) (hn : n < base) :
    compare (base * x + m) (base * y + n) = (compare x y).then (compare m n) := by
  rcases Nat.lt_trichotomy x y with h | h | h
  · have hprod := Nat.mul_le_mul_left base (Nat.succ_le_of_lt h)
    rw [Nat.mul_succ] at hprod
    rw [Nat.compare_eq_lt.mpr h, Nat.compare_eq_lt.mpr (by omega)]
    rfl
  · rw [h, Nat.compare_eq_eq.mpr rfl]
    simp [Nat.compare_eq_ite_lt]
  · have hprod := Nat.mul_le_mul_left base (Nat.succ_le_of_lt h)
    rw [Nat.mul_succ] at hprod
    rw [Nat.compare_eq_gt.mpr h, Nat.compare_eq_gt.mpr (by omega)]
    rfl

/-- Numbers of one length are ordered as their texts are. -/
theorem compare_value {a b : Text} (ha : a.all Char.isDigit) (hb : b.all Char.isDigit)
    (h : a.length = b.length) : compare (value a) (value b) = compare a b := by
  induction a generalizing b with
  | nil =>
    cases b with
    | nil => rfl
    | cons d b => simp at h
  | cons c a ih =>
    cases b with
    | nil => simp at h
    | cons d b =>
      simp only [List.all_cons, Bool.and_eq_true] at ha hb
      simp only [List.length_cons, Nat.add_right_cancel_iff] at h
      have hrest := ih ha.2 hb.2 h
      have hlead : compare (c.toNat - 48) (d.toNat - 48) = compare c d := by
        have hc := isDigit_iff.mp ha.1
        have hd := isDigit_iff.mp hb.1
        rw [compare_char, Nat.compare_eq_ite_lt, Nat.compare_eq_ite_lt]
        split_ifs <;> first | rfl | omega
      rw [List.compare_eq_compareLex] at hrest ⊢
      rw [List.compareLex_cons_cons, ← hrest, ← hlead, value_cons, value_cons, h]
      exact compare_leading (h ▸ value_lt ha.2) (value_lt hb.2)

end Decimal

section Lower

theorem toLower_cases (c : Char) :
    (65 ≤ c.toNat ∧ c.toNat ≤ 90 ∧ c.toLower.toNat = c.toNat + 32) ∨
      (¬ (65 ≤ c.toNat ∧ c.toNat ≤ 90) ∧ c.toLower = c) := by
  have hval : c.toNat = c.val.toNat := rfl
  unfold Char.toLower
  split_ifs with h
  · obtain ⟨h₁, h₂⟩ := h
    simp only [ge_iff_le, UInt32.le_iff_toNat_le] at h₁ h₂
    left
    refine ⟨h₁, h₂, ?_⟩
    change (c.val + ('a'.val - 'A'.val)).toNat = c.val.toNat + 32
    rw [UInt32.toNat_add]
    change (c.val.toNat + 32) % 4294967296 = c.val.toNat + 32
    change c.val.toNat ≤ 90 at h₂
    omega
  · right
    simp only [ge_iff_le, UInt32.le_iff_toNat_le] at h
    exact ⟨h, rfl⟩

theorem isAlphanum_iff {c : Char} : c.isAlphanum ↔ (48 ≤ c.toNat ∧ c.toNat ≤ 57) ∨
    (65 ≤ c.toNat ∧ c.toNat ≤ 90) ∨ (97 ≤ c.toNat ∧ c.toNat ≤ 122) := by
  have hval : c.toNat = c.val.toNat := rfl
  have hupper : c.isUpper = decide ('A'.val ≤ c.val ∧ c.val ≤ 'Z'.val) := rfl
  have hlower : c.isLower = (decide ('a'.val ≤ c.val) && decide (c.val ≤ 'z'.val)) := rfl
  have hdigit : c.isDigit = (decide ('0'.val ≤ c.val) && decide (c.val ≤ '9'.val)) := rfl
  have halphanum : c.isAlphanum = ((c.isUpper || c.isLower) || c.isDigit) := rfl
  simp only [halphanum, hupper, hlower, hdigit, Bool.or_eq_true, Bool.and_eq_true,
    decide_eq_true_eq, UInt32.le_iff_toNat_le, hval]
  change ((65 ≤ _ ∧ _ ≤ 90) ∨ (97 ≤ _ ∧ _ ≤ 122)) ∨ (48 ≤ _ ∧ _ ≤ 57) ↔ _
  tauto

theorem toUpper_cases (c : Char) :
    (97 ≤ c.toNat ∧ c.toNat ≤ 122 ∧ c.toUpper.toNat + 32 = c.toNat) ∨
      (¬ (97 ≤ c.toNat ∧ c.toNat ≤ 122) ∧ c.toUpper = c) := by
  have hval : c.toNat = c.val.toNat := rfl
  unfold Char.toUpper
  split_ifs with h
  · obtain ⟨h₁, h₂⟩ := h
    simp only [UInt32.le_iff_toNat_le] at h₁ h₂
    left
    refine ⟨h₁, h₂, ?_⟩
    change (c.val + ('A'.val - 'a'.val)).toNat + 32 = c.val.toNat
    rw [UInt32.toNat_add]
    change (c.val.toNat + 4294967264) % 4294967296 + 32 = c.val.toNat
    change 97 ≤ c.val.toNat at h₁
    change c.val.toNat ≤ 122 at h₂
    omega
  · right
    simp only [UInt32.le_iff_toNat_le] at h
    exact ⟨h, rfl⟩

theorem toUpper_toLower (c : Char) : c.toLower.toUpper = c.toUpper := by
  rcases toLower_cases c with ⟨h₁, h₂, h₃⟩ | ⟨-, heq⟩
  · rcases toUpper_cases c.toLower with ⟨-, -, h⟩ | ⟨h, -⟩
    · rcases toUpper_cases c with ⟨h', -, -⟩ | ⟨-, heq⟩
      · omega
      · rw [heq]
        exact Char.toNat_inj.mp (by omega)
    · omega
  · rw [heq]

theorem toLower_of_isDigit {c : Char} (h : c.isDigit) : c.toLower = c := by
  have hdigit := isDigit_iff.mp h
  rcases toLower_cases c with ⟨h₁, -, -⟩ | ⟨-, heq⟩
  · omega
  · exact heq

theorem isDigit_toLower (c : Char) : c.toLower.isDigit = c.isDigit := by
  rw [Bool.eq_iff_iff, isDigit_iff, isDigit_iff]
  rcases toLower_cases c with ⟨h₁, h₂, h₃⟩ | ⟨-, heq⟩
  · omega
  · rw [heq]

theorem toLower_toLower (c : Char) : c.toLower.toLower = c.toLower := by
  rcases toLower_cases c with ⟨h₁, h₂, h₃⟩ | ⟨-, heq⟩
  · rcases toLower_cases c.toLower with ⟨-, h, -⟩ | ⟨-, heq⟩
    · omega
    · exact heq
  · rw [heq, heq]

theorem lower_lower (t : Text) : lower (lower t) = lower t := by
  simp only [lower, List.map_map, Function.comp_def, toLower_toLower]

theorem lower_append (a b : Text) : lower (a ++ b) = lower a ++ lower b := by
  simp [lower]

theorem lower_intercalate {sep : Text} (hsep : lower sep = sep) (ts : List Text) :
    lower (sep.intercalate ts) = sep.intercalate (ts.map lower) := by
  induction ts with
  | nil => rfl
  | cons t ts ih =>
    cases ts with
    | nil => simp
    | cons t' ts =>
      rw [List.intercalate_cons_cons, lower_append, lower_append, hsep, ih]
      simp

theorem lower_of_digits {t : Text} (h : t.all Char.isDigit) : lower t = t := by
  unfold lower
  rw [List.all_eq_true] at h
  conv_rhs => rw [← List.map_id t]
  exact List.map_congr_left fun c hc => toLower_of_isDigit (h c hc)

theorem all_isDigit_lower (t : Text) : (lower t).all Char.isDigit = t.all Char.isDigit := by
  simp [lower, List.all_map, Function.comp_def, isDigit_toLower]

theorem toLower_eq_plus {c : Char} : c.toLower = '+' ↔ c = '+' := by
  rcases toLower_cases c with ⟨h₁, h₂, h₃⟩ | ⟨-, heq⟩
  · constructor
    · intro h
      rw [h] at h₃
      change 43 = c.toNat + 32 at h₃
      omega
    · rintro rfl
      decide
  · rw [heq]

theorem utf8Size_toLower (c : Char) : c.toLower.utf8Size = c.utf8Size := by
  rcases toLower_cases c with ⟨h₁, h₂, h₃⟩ | ⟨-, heq⟩
  · have small (d : Char) (hd : d.toNat ≤ 127) : d.utf8Size = 1 := by
      have hval : d.val ≤ 0x7f := UInt32.le_iff_toNat_le.mpr hd
      simp [Char.utf8Size, hval]
    rw [small c (by omega), small c.toLower (by omega)]
  · rw [heq]

@[simp]
theorem byteLen_lower (t : Text) : byteLen (lower t) = byteLen t := by
  induction t with
  | nil => rfl
  | cons c t ih =>
    change c.toLower.utf8Size + byteLen (lower t) = c.utf8Size + byteLen t
    rw [utf8Size_toLower, ih]

@[simp]
theorem byteLen_cons (c : Char) (t : Text) : byteLen (c :: t) = c.utf8Size + byteLen t := rfl

@[simp]
theorem byteLen_append (a b : Text) : byteLen (a ++ b) = byteLen a + byteLen b := by
  induction a with
  | nil => exact (Nat.zero_add _).symm
  | cons c a ih =>
    rw [List.cons_append, byteLen_cons, byteLen_cons, ih, Nat.add_assoc]

theorem parseU64_lower (t : Text) : parseU64 (lower t) = parseU64 t := by
  cases t with
  | nil => rfl
  | cons c rest =>
    have hhead : (lower (c :: rest)).head? = some '+' ↔ (c :: rest).head? = some '+' := by
      simp [lower, toLower_eq_plus]
    have hdigits (ds : Text) : (if (lower ds).isEmpty || !(lower ds).all Char.isDigit then none
        else if value (lower ds) < 2 ^ 64 then some (value (lower ds)) else none) =
        if ds.isEmpty || !ds.all Char.isDigit then none
        else if value ds < 2 ^ 64 then some (value ds) else none := by
      by_cases h : ds.all Char.isDigit
      · rw [lower_of_digits h]
      · rw [all_isDigit_lower]
        simp [h]
    unfold parseU64
    by_cases h : (c :: rest).head? = some '+'
    · simp only [hhead, h, if_true]
      exact hdigits rest
    · simp only [hhead, h, if_false]
      exact hdigits (c :: rest)

end Lower

end Text

end YaNuget
