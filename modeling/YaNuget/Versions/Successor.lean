import YaNuget.Data.Successors
import YaNuget.Versions.Precedence

/-!
# The version after a version

The versions that are accepted have no more than a limited length, so each of
them but the last has one right after it: a longer label where it fits, else
the next label of that length, the release, or the first pre-release of the
next core.
-/
namespace YaNuget.Versions

open Std Orderings

/-- The characters of identifiers in lower case, in order. -/
def preChars : List Char := "-0123456789abcdefghijklmnopqrstuvwxyz".toList

/-- The text right after `t` among those of at most `room` characters of identifiers. -/
def nextText : ℕ → Text → Option Text := nextList (fun _ => 1) '-' fun _ => nextIn preChars

def isWord (t : Text) : Bool := validIdentifier false t && (Text.parseU64 t).isNone

/-- The word right after `id`, of at most `room` characters. No more than ten texts on the
way to it are numbers. -/
def nextWord (room : ℕ) (id : Text) : Option Text :=
  nextThat isWord (nextText room) 12 (Text.lower id)

/-- The identifier right after `id`, of at most `room` characters. -/
def nextIdentifier (room : ℕ) (id : Text) : Option Text :=
  match Text.parseU64 id with
  | some n =>
    if n + 1 < 2 ^ 64 ∧ (Text.decimal (n + 1)).length ≤ room then some (Text.decimal (n + 1))
    else some ['-']
  | none => nextWord room id

/-- The label right after `pre`. Each identifier has a dot or a hyphen before it, which counts. -/
def nextLabel : ℕ → List Text → Option (List Text) :=
  nextList (fun id => id.length + 1) ['0'] fun room id => nextIdentifier (room - 1) id

section Words

theorem numbers_preChars :
    preChars.map Char.toNat = 45 :: (List.range' 48 10 ++ List.range' 97 26) := rfl

theorem mem_preChars {c : Char} : c ∈ preChars ↔ isPreChar c ∧ c.toLower = c := by
  constructor
  · have hall : preChars.all (fun c => isPreChar c && c.toLower = c) = true := rfl
    intro hc
    simpa using List.all_eq_true.mp hall c hc
  · rintro ⟨hpre, hlower⟩
    have hmem : c.toNat ∈ preChars.map Char.toNat := by
      rw [numbers_preChars]
      simp only [List.mem_cons, List.mem_append, List.mem_range'_1]
      rcases toNat_of_isPreChar hpre with h | h | h | h
      · omega
      · rcases Text.toLower_cases c with ⟨-, -, h'⟩ | ⟨h', -⟩
        · rw [hlower] at h'
          omega
        · exact (h' h).elim
      · omega
      · omega
    obtain ⟨d, hd, heq⟩ := List.mem_map.mp hmem
    rwa [← Char.toNat_inj.mp heq]

theorem pairwise_preChars : preChars.Pairwise fun c d => compare c d = .lt := by
  have hnumbers : (preChars.map Char.toNat).Pairwise (· < ·) := by
    rw [numbers_preChars]
    refine List.pairwise_cons.mpr ⟨?_, List.pairwise_append.mpr
      ⟨List.pairwise_lt_range' .., List.pairwise_lt_range' .., ?_⟩⟩
    · intro n hn
      simp only [List.mem_append, List.mem_range'_1] at hn
      omega
    · intro m hm n hn
      simp only [List.mem_range'_1] at hm hn
      omega
  rw [List.pairwise_map] at hnumbers
  apply hnumbers.imp
  intro c d hlt
  rw [Text.compare_char]
  exact Nat.compare_eq_lt.mpr hlt

/-- A text of identifier characters in lower case, of at most `room` of them. -/
abbrev FitsText (room : ℕ) : Text → Prop := Fits (· ∈ preChars) (fun _ => 1) room

theorem weight_one (t : Text) : weight (fun _ => 1) t = t.length := by
  induction t with
  | nil => rfl
  | cons c t ih =>
    rw [weight, ih, List.length_cons]
    omega

theorem sized_preChars :
    Sized (· ∈ preChars) (fun _ => 1) compare '-' fun _ => nextIn preChars where
  least_ok := mem_preChars.mpr ⟨by decide, by decide⟩
  least_le c hc := by
    have hall : preChars.all (fun c => (compare '-' c).isLE) = true := rfl
    exact List.all_eq_true.mp hall c hc
  least_size _ _ := le_rfl
  size_congr _ _ _ _ _ := rfl
  successor room c hc hroom := by
    simpa [hroom] using isSuccessor_nextIn pairwise_preChars hc

theorem isSuccessor_nextText {room : ℕ} {t : Text} (h : FitsText room t) :
    IsSuccessor (FitsText room) compare t (nextText room t) := by
  have hcompare : (compare : Text → Text → Ordering) = List.compareLex compare :=
    List.compare_eq_compareLex
  rw [hcompare]
  exact isSuccessor_nextList sized_preChars t room h

theorem nextText_of_room {room : ℕ} {t : Text} (h : t.length < room) :
    nextText room t = some (t ++ ['-']) := by
  conv_lhs => rw [← List.append_nil t]
  apply nextList_append
  rw [weight_one, nextList, if_pos (by omega)]

theorem nextText_of_full {room : ℕ} {t : Text} {c d : Char} (h : (t ++ [c]).length = room)
    (hd : nextIn preChars c = some d) : nextText room (t ++ [c]) = some (t ++ [d]) := by
  rw [List.length_append, List.length_singleton] at h
  apply nextList_append
  rw [weight_one, ← h, Nat.add_sub_cancel_left, nextList]
  simp [nextList, hd]

theorem fits_of_identifier {room : ℕ} {id : Text} (h : IsIdentifier id) (hlength : id.length ≤ room) :
    FitsText room (Text.lower id) := by
  constructor
  · intro c hc
    obtain ⟨c', hc', rfl⟩ := List.mem_map.mp hc
    have hpre := List.all_eq_true.mp h.2 c' hc'
    exact mem_preChars.mpr ⟨isPreChar_toLower hpre, Text.toLower_toLower c'⟩
  · rw [weight_one]
    simpa [Text.lower] using hlength

theorem lower_of_fits {room : ℕ} {t : Text} (h : FitsText room t) : Text.lower t = t := by
  unfold Text.lower
  conv_rhs => rw [← List.map_id t]
  exact List.map_congr_left fun c hc => (mem_preChars.mp (h.1 c hc)).2

theorem digits_of_not_word {room : ℕ} {t : Text} (h : FitsText room t) (hne : t ≠ [])
    (hword : isWord t = false) : t.all Char.isDigit := by
  by_contra hdigits
  have hpre : t.all isPreChar := List.all_eq_true.mpr fun c hc => (mem_preChars.mp (h.1 c hc)).1
  have hid : IsIdentifier t := ⟨hne, hpre⟩
  have hnone := Text.parseU64_eq_none (not_plus_mem hid) (by simpa using hdigits)
  simp [isWord, validIdentifier, hne, hpre, hdigits, hnone] at hword

/-- How many numbers can follow a text that is no word before the next word. -/
def numbersAfter (t : Text) : ℕ :=
  if isWord t then 11 else 57 - (t.getLast?.elim 48 Char.toNat)

theorem numbersAfter_lt (t : Text) {room : ℕ} (h : FitsText room t) : numbersAfter t < 12 := by
  unfold numbersAfter
  split_ifs with hword
  · omega
  · cases hlast : t.getLast? with
    | none => simp
    | some c =>
      have hmem := List.mem_of_getLast? hlast
      have hdigit := digits_of_not_word h (List.ne_nil_of_mem hmem) (by simpa using hword)
      have := Text.isDigit_iff.mp (List.all_eq_true.mp hdigit c hmem)
      simp only [Option.elim_some]
      omega

theorem nextIn_digit {c : Char} (h : c.isDigit) : ∃ d, nextIn preChars c = some d ∧
    (d.isDigit = false ∨ d.isDigit ∧ c.toNat < d.toNat) ∧ isPreChar d := by
  have hall : "0123456789".toList.all (fun c => (nextIn preChars c).any fun d =>
      (!d.isDigit || d.isDigit && c.toNat < d.toNat) && isPreChar d) = true := rfl
  have hmem : c ∈ "0123456789".toList := by
    have hnumbers : "0123456789".toList.map Char.toNat = List.range' 48 10 := rfl
    have hc : c.toNat ∈ "0123456789".toList.map Char.toNat := by
      rw [hnumbers, List.mem_range'_1]
      have := Text.isDigit_iff.mp h
      omega
    obtain ⟨d, hd, heq⟩ := List.mem_map.mp hc
    rwa [← Char.toNat_inj.mp heq]
  have hnext := List.all_eq_true.mp hall c hmem
  cases hd : nextIn preChars c with
  | none => simp [hd] at hnext
  | some d => exact ⟨d, rfl, by simpa [hd] using hnext⟩

/-- The texts between a word and the next one are fewer and fewer numbers. -/
theorem numbersAfter_next {room : ℕ} {t u : Text} (h : FitsText room t)
    (hnext : nextText room t = some u) (hu : isWord u = false) :
    numbersAfter u < numbersAfter t := by
  have hspec := isSuccessor_nextText h
  rw [hnext] at hspec
  obtain ⟨hfits, hlt, -⟩ := hspec
  have hne : u ≠ [] := by
    rintro rfl
    rw [List.compare_eq_compareLex] at hlt
    cases t <;> simp [List.compareLex_nil_nil, List.compareLex_cons_nil] at hlt
  have hdigits := digits_of_not_word hfits hne hu
  obtain ⟨p', d', rfl⟩ := List.eq_nil_or_concat' u |>.resolve_left hne
  have hd' : d'.isDigit := by simpa using List.all_eq_true.mp hdigits d' (by simp)
  have hd' := Text.isDigit_iff.mp hd'
  have hafter : numbersAfter (p' ++ [d']) = 57 - d'.toNat := by
    simp [numbersAfter, hu]
  rw [hafter]
  by_cases hword : isWord t = true
  · simp only [numbersAfter, hword, if_true]
    omega
  have hfull : t.length = room := by
    have hle : t.length ≤ room := by simpa [weight_one] using h.2
    by_contra hne'
    rw [nextText_of_room (by omega)] at hnext
    have hlast := List.append_inj_right' (Option.some.inj hnext) rfl
    rw [List.cons.injEq] at hlast
    rw [← hlast.1] at hd'
    exact absurd hd'.1 (by decide)
  have hne' : t ≠ [] := by
    rintro rfl
    rw [List.length_nil] at hfull
    rw [← hfull] at hnext
    simp [nextText, nextList] at hnext
  have hdigits' := digits_of_not_word h hne' (by simpa using hword)
  obtain ⟨p, c, rfl⟩ := List.eq_nil_or_concat' t |>.resolve_left hne'
  have hc : c.isDigit := by simpa using List.all_eq_true.mp hdigits' c (by simp)
  obtain ⟨d, hd, hgreater, -⟩ := nextIn_digit hc
  rw [nextText_of_full hfull hd] at hnext
  have hlast := List.append_inj_right' (Option.some.inj hnext) rfl
  rw [List.cons.injEq] at hlast
  obtain rfl := hlast.1
  have hc' := Text.isDigit_iff.mp hc
  have hbefore : numbersAfter (p ++ [c]) = 57 - c.toNat := by
    simp [numbersAfter, hword]
  rw [hbefore]
  rcases hgreater with hnot | ⟨-, hlt⟩
  · rw [Text.isDigit_iff.mpr hd'] at hnot
    simp at hnot
  · omega

theorem isSuccessor_nextWord {room : ℕ} {id : Text} (h : IsIdentifier id)
    (hlength : id.length ≤ room) :
    IsSuccessor (fun t => FitsText room t ∧ isWord t = true) compare (Text.lower id)
      (nextWord room id) := by
  have hfits := fits_of_identifier h hlength
  refine isSuccessor_nextThat (P := FitsText room) ?_ ?_ (?_ : ∀ t u, FitsText room t →
    nextText room t = some u → isWord u = false → numbersAfter u < numbersAfter t) _ _ ?_ ?_
  · intro a b _ _ heq
    rw [LawfulEqCmp.eq_of_compare heq]
  · exact fun t ht => isSuccessor_nextText ht
  · exact fun t u ht hnext hu => numbersAfter_next ht hnext hu
  · exact hfits
  · exact numbersAfter_lt _ hfits

end Words

section Identifiers

def FitsIdentifier (room : ℕ) (id : Text) : Prop := validIdentifier false id = true ∧ id.length ≤ room

theorem validIdentifier_decimal (n : ℕ) : validIdentifier false (Text.decimal n) = true := by
  have hid := isIdentifier_decimal n
  have hzero : Text.decimal n = ['0'] ∨ (Text.decimal n).head? ≠ some '0' := by
    by_cases hn : n = 0
    · subst hn
      exact .inl rfl
    · right
      intro hhead
      have hdrop := Text.dropWhile_decimal hn
      cases hdigits : Text.decimal n with
      | nil => exact Text.decimal_ne_nil n hdigits
      | cons c rest =>
        rw [hdigits] at hhead hdrop
        obtain rfl := Option.some.inj hhead
        have hlength := congrArg List.length hdrop
        have hle := (List.dropWhile_suffix (l := rest) fun x => decide (x = '0')).length_le
        simp at hlength
        omega
  rcases hzero with hzero | hzero
  · rw [hzero]
    decide
  · simp [validIdentifier, hid.1, hid.2, hzero]

theorem length_decimal_mono {m n : ℕ} (h : m ≤ n) :
    (Text.decimal m).length ≤ (Text.decimal n).length := by
  by_contra hlt
  have hpos : 0 < (Text.decimal n).length := List.length_pos_iff.mpr (Text.decimal_ne_nil n)
  have hn := Text.value_lt (Text.all_isDigit_decimal n)
  rw [Text.value_decimal] at hn
  exact hlt (Text.length_decimal_le hpos (by omega))

theorem dash_le_word {c : Text} (h : IsIdentifier c) :
    (compare ['-'] (Text.lower c)).isLE := by
  have hfits := fits_of_identifier h le_rfl
  cases hc : Text.lower c with
  | nil => exact (h.lower.1 hc).elim
  | cons d rest =>
    rw [hc] at hfits
    rw [List.compare_eq_compareLex]
    exact isLE_compareLex_singleton (sized_preChars.least_le d (hfits.1 d List.mem_cons_self))

theorem after_number {id c : Text} {n : ℕ} (hn : Text.parseU64 id = some n)
    (hc : validIdentifier false c = true) (h : compareIdentifier id c = .lt) :
    Text.parseU64 c = none ∨ ∃ m, n < m ∧ m < 2 ^ 64 ∧ c = Text.decimal m := by
  unfold compareIdentifier at h
  cases hm : Text.parseU64 c with
  | none => exact .inl rfl
  | some m =>
    right
    obtain ⟨hdigits, hvalue⟩ := digits_of_parseU64 (isIdentifier_of_valid hc) hm
    refine ⟨m, ?_, NuGetVersion.parseU64_lt hm, ?_⟩
    · simpa [hn, hm, Nat.compare_eq_lt] using h
    · rw [← hvalue]
      exact eq_decimal_value hc hdigits

theorem isSuccessor_number {room : ℕ} {id : Text} (h : FitsIdentifier room id) {n : ℕ}
    (hn : Text.parseU64 id = some n) :
    IsSuccessor (FitsIdentifier room) compareIdentifier id (nextIdentifier room id) := by
  simp only [nextIdentifier, hn]
  split_ifs with hnext
  · have hparse := parseU64_decimal hnext.1
    refine ⟨⟨validIdentifier_decimal _, hnext.2⟩, ?_, ?_⟩
    · simp [compareIdentifier, hn, hparse, Nat.compare_eq_lt]
    · intro c hc hlt
      rcases after_number hn hc.1 hlt with hnone | ⟨m, hm, hm64, rfl⟩
      · simp [compareIdentifier, hparse, hnone]
      · simp only [compareIdentifier, hparse, parseU64_decimal hm64]
        rw [Nat.isLE_compare]
        omega
  · have hroom : 1 ≤ room := by
      have := List.length_pos_iff.mpr (isIdentifier_of_valid h.1).1
      have := h.2
      omega
    have hdash : Text.parseU64 ['-'] = none := by decide
    refine ⟨⟨by decide, hroom⟩, by simp [compareIdentifier, hn, hdash], ?_⟩
    intro c hc hlt
    rcases after_number hn hc.1 hlt with hnone | ⟨m, hm, hm64, rfl⟩
    · simp only [compareIdentifier, hdash, hnone]
      exact dash_le_word (isIdentifier_of_valid hc.1)
    · have hlonger := length_decimal_mono (m := n + 1) (n := m) (by omega)
      have hle := hc.2
      exact (hnext ⟨by omega, by omega⟩).elim

theorem isSuccessor_word {room : ℕ} {id : Text} (h : FitsIdentifier room id)
    (hnone : Text.parseU64 id = none) :
    IsSuccessor (FitsIdentifier room) compareIdentifier id (nextIdentifier room id) := by
  have hspec := isSuccessor_nextWord (isIdentifier_of_valid h.1) h.2
  have hafter : ∀ c, FitsIdentifier room c → compareIdentifier id c = .lt →
      (FitsText room (Text.lower c) ∧ isWord (Text.lower c) = true) ∧ Text.parseU64 c = none ∧
        compare (Text.lower id) (Text.lower c) = .lt := by
    intro c hc hlt
    unfold compareIdentifier at hlt
    cases hm : Text.parseU64 c with
    | some m => simp [hnone, hm] at hlt
    | none =>
      refine ⟨⟨fits_of_identifier (isIdentifier_of_valid hc.1) hc.2, ?_⟩, rfl, ?_⟩
      · simp [isWord, validIdentifier_lower hc.1, Text.parseU64_lower, hm]
      · simpa [hnone, hm] using hlt
  have hnext : nextIdentifier room id = nextWord room id := by simp [nextIdentifier, hnone]
  rw [hnext]
  cases hres : nextWord room id with
  | none =>
    rw [hres] at hspec
    intro c hc hlt
    obtain ⟨hfits, -, hlt'⟩ := hafter c hc hlt
    exact hspec _ hfits hlt'
  | some b =>
    rw [hres] at hspec
    obtain ⟨⟨hfits, hword⟩, hlt, hleast⟩ := hspec
    simp only [isWord, Bool.and_eq_true, Option.isNone_iff_eq_none] at hword
    have hlower := lower_of_fits hfits
    refine ⟨⟨hword.1, by simpa [weight_one] using hfits.2⟩, ?_, ?_⟩
    · simp [compareIdentifier, hnone, hword.2, hlower, hlt]
    · intro c hc hlt'
      obtain ⟨hfits', hnone', hlt''⟩ := hafter c hc hlt'
      simp only [compareIdentifier, hword.2, hnone', hlower]
      exact hleast _ hfits' hlt''

theorem isSuccessor_nextIdentifier {room : ℕ} {id : Text} (h : FitsIdentifier room id) :
    IsSuccessor (FitsIdentifier room) compareIdentifier id (nextIdentifier room id) := by
  cases hn : Text.parseU64 id with
  | some n => exact isSuccessor_number h hn
  | none => exact isSuccessor_word h hn

theorem zero_le_identifier {id : Text} : (compareIdentifier ['0'] id).isLE := by
  have hzero : Text.parseU64 ['0'] = some 0 := by decide
  unfold compareIdentifier
  cases Text.parseU64 id with
  | none => simp [hzero]
  | some n => simp [hzero, Nat.isLE_compare]

theorem sized_identifiers : Sized (fun id => validIdentifier false id = true)
    (fun id => id.length + 1) compareIdentifier ['0']
    fun room id => nextIdentifier (room - 1) id where
  least_ok := by decide
  least_le _ _ := zero_le_identifier
  least_size id hid := by
    have hpos := List.length_pos_iff.mpr (isIdentifier_of_valid hid).1
    change 2 ≤ id.length + 1
    omega
  size_congr a b ha hb h := by
    have hlower := congrArg List.length ((compareIdentifier_same ha hb).mp h)
    simpa [Text.lower] using hlower
  successor room id hid hroom := by
    have hspec := isSuccessor_nextIdentifier (⟨hid, by omega⟩ : FitsIdentifier (room - 1) id)
    have hfits : FitsIdentifier (room - 1) =
        fun b => validIdentifier false b = true ∧ b.length + 1 ≤ room := by
      funext b
      simp only [FitsIdentifier, eq_iff_iff, and_congr_right_iff]
      omega
    rwa [hfits] at hspec

/-- The identifiers of a label that takes up at most `room` characters. -/
abbrev FitsLabel (room : ℕ) : List Text → Prop :=
  Fits (fun id => validIdentifier false id = true) (fun id => id.length + 1) room

theorem isSuccessor_nextLabel {room : ℕ} {pre : List Text} (h : FitsLabel room pre) :
    IsSuccessor (FitsLabel room) (List.compareLex compareIdentifier) pre (nextLabel room pre) :=
  isSuccessor_nextList sized_identifiers pre room h

end Identifiers

namespace NuGetVersion

/-- The core right after that of `v`, the numbers of which are at most `2 ^ 31 - 1`. -/
def nextCore (v : NuGetVersion) : Option (ℕ × ℕ × ℕ × ℕ) :=
  if v.revision < 2 ^ 31 - 1 then some (v.major, v.minor, v.patch, v.revision + 1)
  else if v.patch < 2 ^ 31 - 1 then some (v.major, v.minor, v.patch + 1, 0)
  else if v.minor < 2 ^ 31 - 1 then some (v.major, v.minor + 1, 0, 0)
  else if v.major < 2 ^ 31 - 1 then some (v.major + 1, 0, 0, 0)
  else none

def ofParts (core : ℕ × ℕ × ℕ × ℕ) (pre : List Text) : NuGetVersion :=
  ⟨core.1, core.2.1, core.2.2.1, core.2.2.2, pre, none, []⟩

/-- The first of all versions. -/
def first : NuGetVersion := ofParts (0, 0, 0, 0) [['0']]

/-- The version right after `v`, if it is not the last one. -/
def successor (v : NuGetVersion) : Option NuGetVersion :=
  if v.pre = [] then v.nextCore.map fun core => ofParts core [['0']]
  else some (ofParts v.core ((nextLabel (maxVersionChars - v.coreString.length) v.pre).getD []))

section Successors

variable {v c : NuGetVersion}

/-- A core is after another one if one of its numbers is greater, and those before it are equal. -/
theorem cmpCore_lt : cmpCore v c = .lt ↔ v.major < c.major ∨ v.major = c.major ∧
    (v.minor < c.minor ∨ v.minor = c.minor ∧
      (v.patch < c.patch ∨ v.patch = c.patch ∧ v.revision < c.revision)) := by
  simp only [cmpCore, Ordering.then_eq_lt, Nat.compare_eq_lt, Nat.compare_eq_eq]

theorem cmpCore_isLE : (cmpCore v c).isLE ↔ ¬ (c.major < v.major ∨ v.major = c.major ∧
    (c.minor < v.minor ∨ v.minor = c.minor ∧
      (c.patch < v.patch ∨ v.patch = c.patch ∧ c.revision < v.revision))) := by
  rw [← Ordering.ne_gt_iff_isLE, not_congr]
  simp only [cmpCore, Ordering.then_eq_gt, Nat.compare_eq_gt, Nat.compare_eq_eq]

theorem core_le (h : v.IsStrict) : v.major ≤ 2 ^ 31 - 1 ∧ v.minor ≤ 2 ^ 31 - 1 ∧
    v.patch ≤ 2 ^ 31 - 1 ∧ v.revision ≤ 2 ^ 31 - 1 := by
  have hle := h.components
  unfold components at hle
  split_ifs at hle with hrevision
  · simpa using hle
  · simp only [List.mem_cons, List.not_mem_nil, or_false, forall_eq_or_imp, forall_eq] at hle
    exact ⟨hle.1, hle.2.1, hle.2.2, by omega⟩

theorem byteLen_written {t : Text} (h : ∀ c ∈ t, IsWritten c) : Text.byteLen t = t.length := by
  induction t with
  | nil => rfl
  | cons c t ih =>
    have hsize : c.utf8Size = 1 := by
      have hval : c.val ≤ 0x7f := by
        rw [UInt32.le_iff_toNat_le]
        change c.toNat ≤ 127
        rcases h c List.mem_cons_self with rfl | hc
        · decide
        · have := toNat_of_isPreChar hc
          omega
      simp [Char.utf8Size, hval]
    rw [Text.byteLen_cons, hsize, ih fun c hc => h c (List.mem_cons_of_mem _ hc), List.length_cons]
    omega

/-- A label takes up the characters of its identifiers, and one before each of them. -/
theorem byteLen_label (h : ∀ id ∈ v.pre, IsIdentifier id) :
    Text.byteLen v.label = weight (fun id => id.length + 1) v.pre := by
  have joined (ids : List Text) (hne : ids ≠ []) :
      ('-' :: ['.'].intercalate ids).length = weight (fun id => id.length + 1) ids := by
    induction ids with
    | nil => exact (hne rfl).elim
    | cons id ids ih =>
      cases ids with
      | nil => simp [weight]
      | cons id' ids =>
        have hrest := ih (by simp)
        rw [weight, ← hrest, List.intercalate_cons_cons]
        simp only [List.length_cons, List.length_append, List.length_nil]
        omega
  by_cases hnil : v.pre = []
  · simp [label, hnil, weight, Text.byteLen]
  · have hlabel : v.label = '-' :: ['.'].intercalate v.pre := by simp [label, hnil]
    rw [hlabel, byteLen_written, joined v.pre hnil]
    intro c hc
    rcases List.mem_cons.mp hc with rfl | hc
    · exact .inr (by decide)
    · exact isWritten_of_label h hc

theorem byteLen_toFullString (h : ∀ id ∈ v.pre, IsIdentifier id) (hm : v.metadata = none) :
    Text.byteLen v.toFullString =
      v.coreString.length + weight (fun id => id.length + 1) v.pre := by
  have hfull : v.toFullString = v.coreString ++ v.label := by simp [toFullString, hm, label]
  rw [hfull, Text.byteLen_append, byteLen_label h, byteLen_written fun c hc => isWritten_coreString hc]

theorem length_coreString (h : v.major ≤ 2 ^ 31 - 1 ∧ v.minor ≤ 2 ^ 31 - 1 ∧
    v.patch ≤ 2 ^ 31 - 1 ∧ v.revision ≤ 2 ^ 31 - 1) : v.coreString.length ≤ 43 := by
  have hdecimal {n : ℕ} (hn : n ≤ 2 ^ 31 - 1) : (Text.decimal n).length ≤ 10 :=
    Text.length_decimal_le (by decide) (by omega)
  obtain ⟨ha, hb, hc, hd⟩ := h
  have ha := hdecimal ha
  have hb := hdecimal hb
  have hc := hdecimal hc
  have hd := hdecimal hd
  unfold coreString
  split_ifs <;> simp only [List.intercalate_cons_cons, List.intercalate_singleton,
    List.length_append, List.length_singleton] <;> omega

theorem fitsLabel_of_strict (h : v.IsStrict) :
    FitsLabel (maxVersionChars - v.coreString.length) v.pre := by
  have hpre : ∀ id ∈ v.pre, IsIdentifier id := h.isStored.pre
  have hlabel := byteLen_label hpre
  have hcore := byteLen_written (t := v.coreString) fun c hc => isWritten_coreString hc
  have hfull : Text.byteLen (v.coreString ++ v.label) ≤ Text.byteLen v.toFullString := by
    simp [toFullString, label]
  rw [Text.byteLen_append] at hfull
  have hlength := h.length
  refine ⟨h.pre, ?_⟩
  omega

theorem isStrict_ofParts {core : ℕ × ℕ × ℕ × ℕ} {pre : List Text}
    (hcore : (ofParts core []).IsStrict)
    (hpre : FitsLabel (maxVersionChars - (ofParts core []).coreString.length) pre) :
    (ofParts core pre).IsStrict where
  components := hcore.components
  pre := hpre.1
  metadata m hm := by simp [ofParts] at hm
  length := by
    rw [byteLen_toFullString (fun id hid => isIdentifier_of_valid (hpre.1 id hid)) rfl]
    change (ofParts core []).coreString.length + weight (fun id => id.length + 1) pre ≤ _
    have hle := hpre.2
    have hshort := length_coreString (core_le hcore)
    simp only [maxVersionChars] at hle ⊢
    omega

theorem isStrict_release {core : ℕ × ℕ × ℕ × ℕ}
    (h : core.1 ≤ 2 ^ 31 - 1 ∧ core.2.1 ≤ 2 ^ 31 - 1 ∧ core.2.2.1 ≤ 2 ^ 31 - 1 ∧
      core.2.2.2 ≤ 2 ^ 31 - 1) : (ofParts core []).IsStrict where
  components := forall_components h
  pre id hid := by simp [ofParts] at hid
  metadata m hm := by simp [ofParts] at hm
  length := by
    rw [byteLen_toFullString (by simp [ofParts]) rfl]
    have hshort := length_coreString (v := ofParts core []) h
    simp only [ofParts, weight, maxVersionChars] at hshort ⊢
    omega

theorem coreString_congr (h : v.core = c.core) : v.coreString = c.coreString := by
  simp only [core, Prod.mk.injEq] at h
  simp [coreString, h]

/-- A pre-release is compared by its label with another one, and comes before the release. -/
theorem cmpPre_of_pre (h : v.pre ≠ []) : cmpPre v c =
    if c.pre = [] then .lt else List.compareLex compareIdentifier v.pre c.pre := by
  have hempty : v.pre.isEmpty = false := by simpa using h
  unfold cmpPre
  rw [comparePreIdentifiers_eq, hempty]
  cases c.pre <;> rfl

theorem cmpPre_of_release (h : v.pre = []) : cmpPre v c = if c.pre = [] then .eq else .gt := by
  unfold cmpPre
  rw [h]
  cases c.pre <;> rfl

/-- The last number that is not the greatest one is increased, and those after it start again. -/
theorem nextCore_eq_some {core : ℕ × ℕ × ℕ × ℕ} (h : nextCore v = some core) :
    (v.revision < 2 ^ 31 - 1 ∧ core = (v.major, v.minor, v.patch, v.revision + 1)) ∨
      2 ^ 31 - 1 ≤ v.revision ∧ (v.patch < 2 ^ 31 - 1 ∧ core = (v.major, v.minor, v.patch + 1, 0) ∨
        2 ^ 31 - 1 ≤ v.patch ∧ (v.minor < 2 ^ 31 - 1 ∧ core = (v.major, v.minor + 1, 0, 0) ∨
          2 ^ 31 - 1 ≤ v.minor ∧ v.major < 2 ^ 31 - 1 ∧ core = (v.major + 1, 0, 0, 0))) := by
  unfold nextCore at h
  split at h
  next hlt => exact .inl ⟨hlt, (Option.some.inj h).symm⟩
  next hge =>
  refine .inr ⟨Nat.le_of_not_lt hge, ?_⟩
  split at h
  next hlt => exact .inl ⟨hlt, (Option.some.inj h).symm⟩
  next hge =>
  refine .inr ⟨Nat.le_of_not_lt hge, ?_⟩
  split at h
  next hlt => exact .inl ⟨hlt, (Option.some.inj h).symm⟩
  next hge =>
  refine .inr ⟨Nat.le_of_not_lt hge, ?_⟩
  split at h
  next hlt => exact ⟨hlt, (Option.some.inj h).symm⟩
  next => simp at h

theorem nextCore_eq_none (h : nextCore v = none) : 2 ^ 31 - 1 ≤ v.major ∧
    2 ^ 31 - 1 ≤ v.minor ∧ 2 ^ 31 - 1 ≤ v.patch ∧ 2 ^ 31 - 1 ≤ v.revision := by
  unfold nextCore at h
  split at h
  · simp at h
  split at h
  · simp at h
  split at h
  · simp at h
  split at h
  · simp at h
  omega

/-- The core right after that of `v` is greater, and none is between them. -/
theorem nextCore_spec (h : v.IsStrict) {core : ℕ × ℕ × ℕ × ℕ} (hcore : nextCore v = some core) :
    (ofParts core []).IsStrict ∧ cmpCore v (ofParts core []) = .lt ∧
      ∀ c, c.IsStrict → cmpCore v c = .lt → (cmpCore (ofParts core []) c).isLE := by
  have hle := core_le h
  simp only [cmpCore_lt, cmpCore_isLE]
  rcases nextCore_eq_some hcore with ⟨hlt, rfl⟩ | ⟨hd, ⟨hlt, rfl⟩ | ⟨hc, ⟨hlt, rfl⟩ | ⟨hb, hlt, rfl⟩⟩⟩
  all_goals
    refine ⟨isStrict_release (by simp only; omega), by dsimp only [ofParts]; omega, ?_⟩
    intro c hc hlt
    have hc := core_le hc
    dsimp only [ofParts]
    omega

theorem cmpCore_last (h : nextCore v = none) (hc : c.IsStrict) : cmpCore v c ≠ .lt := by
  have hle := core_le hc
  have hge := nextCore_eq_none h
  rw [ne_eq, cmpCore_lt]
  omega

theorem zero_le_cmpPre {core : ℕ × ℕ × ℕ × ℕ} : (cmpPre (ofParts core [['0']]) c).isLE := by
  rw [cmpPre_of_pre (by simp [ofParts])]
  split_ifs with hc
  · rfl
  · cases hpre : c.pre with
    | nil => exact (hc hpre).elim
    | cons id pre => exact isLE_compareLex_singleton zero_le_identifier

theorem fits_zero (core : ℕ × ℕ × ℕ × ℕ) (h : (ofParts core []).IsStrict) :
    FitsLabel (maxVersionChars - (ofParts core []).coreString.length) [['0']] := by
  have hshort := length_coreString (core_le h)
  refine fits_singleton.mpr ⟨by decide, ?_⟩
  simp only [maxVersionChars, List.length_singleton]
  omega

theorem isSuccessor_release (h : v.IsStrict) (hpre : v.pre = []) :
    IsSuccessor IsStrict cmp v (successor v) := by
  -- what comes after a release has a greater core
  have hafter : ∀ c, cmp v c = .lt → cmpCore v c = .lt := by
    intro c hlt
    rw [cmp, Ordering.then_eq_lt] at hlt
    rcases hlt with hlt | ⟨-, hlt⟩
    · exact hlt
    · rw [cmpPre_of_release hpre] at hlt
      split_ifs at hlt
  unfold successor
  rw [if_pos hpre]
  cases hcore : nextCore v with
  | none =>
    intro c hc hlt
    exact cmpCore_last hcore hc (hafter c hlt)
  | some core =>
    obtain ⟨hstrict, hgreater, hleast⟩ := nextCore_spec h hcore
    have hsame (c : NuGetVersion) : cmpCore (ofParts core [['0']]) c = cmpCore (ofParts core []) c :=
      rfl
    refine ⟨isStrict_ofParts hstrict (fits_zero core hstrict), ?_, ?_⟩
    · have hlt : cmpCore v (ofParts core [['0']]) = .lt := hgreater
      rw [cmp, hlt]
      rfl
    · intro c hc hlt
      have hle := hleast c hc (hafter c hlt)
      have hzero : (cmpPre (ofParts core [['0']]) c).isLE := zero_le_cmpPre
      rw [cmp, hsame]
      cases hcmp : cmpCore (ofParts core []) c with
      | lt => rfl
      | eq => exact hzero
      | gt => simp [hcmp] at hle

theorem isSuccessor_prerelease (h : v.IsStrict) (hpre : v.pre ≠ []) :
    IsSuccessor IsStrict cmp v (successor v) := by
  have hstrict : (ofParts v.core []).IsStrict := isStrict_release (core_le h)
  have hfits := fitsLabel_of_strict h
  have hspec := isSuccessor_nextLabel hfits
  have hstring : v.coreString = (ofParts v.core []).coreString := coreString_congr rfl
  have hcore (label : List Text) : cmpCore v (ofParts v.core label) = .eq := cmpCore_eq_eq.mpr rfl
  -- what comes after a pre-release has a greater core, is its release, or has a greater label
  have hafter : ∀ c, c.IsStrict → cmp v c = .lt → cmpCore v c = .lt ∨ cmpCore v c = .eq ∧
      (c.pre = [] ∨ c.pre ≠ [] ∧ FitsLabel (maxVersionChars - v.coreString.length) c.pre ∧
        List.compareLex compareIdentifier v.pre c.pre = .lt) := by
    intro c hc hlt
    rw [cmp, Ordering.then_eq_lt] at hlt
    rcases hlt with hlt | ⟨heq, hlt⟩
    · exact .inl hlt
    · refine .inr ⟨heq, ?_⟩
      rw [cmpPre_of_pre hpre] at hlt
      by_cases hnil : c.pre = []
      · exact .inl hnil
      · rw [if_neg hnil] at hlt
        have hfits' := fitsLabel_of_strict hc
        rw [← coreString_congr (cmpCore_eq_eq.mp heq)] at hfits'
        exact .inr ⟨hnil, hfits', hlt⟩
  have hsame (label : List Text) (c : NuGetVersion) :
      cmpCore (ofParts v.core label) c = cmpCore v c := rfl
  unfold successor
  rw [if_neg hpre]
  cases hnext : nextLabel (maxVersionChars - v.coreString.length) v.pre with
  | none =>
    rw [hnext] at hspec
    refine ⟨hstrict, ?_, ?_⟩
    · rw [cmp, Option.getD_none, hcore, Ordering.eq_then, cmpPre_of_pre hpre]
      rfl
    · intro c hc hlt
      rw [cmp, Option.getD_none, hsame]
      rcases hafter c hc hlt with hlt | ⟨heq, hnil | ⟨-, hfits', hlt⟩⟩
      · simp [hlt]
      · rw [heq, Ordering.eq_then, cmpPre_of_release rfl, if_pos hnil]
        rfl
      · exact (hspec c.pre hfits' hlt).elim
  | some label =>
    rw [hnext] at hspec
    obtain ⟨hlabel, hlt, hleast⟩ := hspec
    have hne : label ≠ [] := by
      rintro rfl
      cases hpre' : v.pre with
      | nil => exact hpre hpre'
      | cons id ids => simp [hpre', List.compareLex_cons_nil] at hlt
    have hne' : (ofParts v.core label).pre ≠ [] := hne
    refine ⟨isStrict_ofParts hstrict (by rwa [← hstring]), ?_, ?_⟩
    · rw [cmp, Option.getD_some, hcore, Ordering.eq_then, cmpPre_of_pre hpre, if_neg hne']
      exact hlt
    · intro c hc hlt
      rw [cmp, Option.getD_some, hsame]
      rcases hafter c hc hlt with hlt | ⟨heq, hnil | ⟨hc', hfits', hlt⟩⟩
      · simp [hlt]
      · rw [heq, Ordering.eq_then, cmpPre_of_pre hne', if_pos hnil]
        rfl
      · rw [heq, Ordering.eq_then, cmpPre_of_pre hne', if_neg hc']
        exact hleast c.pre hfits' hlt

theorem isSuccessor_successor (h : v.IsStrict) : IsSuccessor IsStrict cmp v (successor v) := by
  by_cases hpre : v.pre = []
  · exact isSuccessor_release h hpre
  · exact isSuccessor_prerelease h hpre

theorem isStrict_first : first.IsStrict := by
  have hzero : (ofParts (0, 0, 0, 0) []).IsStrict := isStrict_release (by decide)
  exact isStrict_ofParts hzero (fits_zero _ hzero)

theorem first_le : (cmp first c).isLE := by
  have hzero : (cmpPre (ofParts (0, 0, 0, 0) [['0']]) c).isLE := zero_le_cmpPre
  rw [cmp]
  cases hcmp : cmpCore first c with
  | lt => rfl
  | eq => exact hzero
  | gt =>
    have hle : (cmpCore first c).isLE := cmpCore_isLE.mpr (by simp [first, ofParts])
    simp [hcmp] at hle

end Successors

end NuGetVersion

end YaNuget.Versions
