import YaNuget.Versions.Order
import YaNuget.Versions.FullString

/-!
# The identity of a version

The full string and the normalized string of a version are read back as the
version they were made from. So versions are equal exactly when their
normalized strings are, and these may serve as keys.
-/
namespace YaNuget.Versions

section Numbers

variable {part : Text} {n : ℕ}

theorem value_dropWhile_zero (digits : Text) :
    Text.value (digits.dropWhile (· = '0')) = Text.value digits := by
  induction digits with
  | nil => rfl
  | cons c rest ih =>
    by_cases hc : c = '0'
    · subst hc
      have hcons : Text.value ('0' :: rest) = Text.value rest := by
        rw [Text.value, Nat.ofDigitChars_cons]
        rfl
      rw [hcons, List.dropWhile_cons_of_pos (by decide), ih]
    · simp [hc]

/-- What `parseComponent` reads are digits, read by value. -/
theorem of_parseComponent (h : parseComponent part = some n) :
    part ≠ [] ∧ part.all Char.isDigit ∧ Text.value part = n ∧ n ≤ 2 ^ 31 - 1 := by
  have hvalue := value_dropWhile_zero part
  unfold parseComponent at h
  split at h
  · simp at h
  next hpart =>
    have hpart' : part ≠ [] ∧ part.all Char.isDigit := by simpa using hpart
    simp only [List.isEmpty_iff] at h
    split at h
    next hnil =>
      rw [hnil] at hvalue
      refine ⟨hpart'.1, hpart'.2, ?_, ?_⟩
      · rw [← hvalue, ← Option.some.inj h]
        rfl
      · rw [← Option.some.inj h]
        decide
    next hne =>
      have hdrop : (part.dropWhile (· = '0')).all Char.isDigit := by
        rw [List.all_eq_true] at hpart' ⊢
        exact fun c hc => hpart'.2 c ((List.dropWhile_suffix _).subset hc)
      rw [Text.parseU64_of_digits hne hdrop, hvalue] at h
      split at h
      · simp only [Option.bind_some, Option.ite_none_right_eq_some, Option.some.injEq] at h
        exact ⟨hpart'.1, hpart'.2, h.2, h.2 ▸ h.1⟩
      · simp at h

theorem parseComponent_decimal (h : n ≤ 2 ^ 31 - 1) : parseComponent (Text.decimal n) = some n := by
  have hguard : ((Text.decimal n).isEmpty || !(Text.decimal n).all Char.isDigit) = false := by
    simp only [Text.all_isDigit_decimal, Bool.not_true, Bool.or_false, List.isEmpty_eq_false_iff]
    exact Text.decimal_ne_nil n
  unfold parseComponent
  rw [hguard]
  by_cases hn : n = 0
  · subst hn
    rfl
  · have hnil : (Text.decimal n).isEmpty = false := by
      simpa using Text.decimal_ne_nil n
    simp only [Bool.false_eq_true, if_false, Text.dropWhile_decimal hn, hnil]
    rw [Text.parseU64_of_digits (Text.decimal_ne_nil n) (Text.all_isDigit_decimal n),
      Text.value_decimal, if_pos (by omega), Option.bind_some, if_pos h]

theorem parseU64_decimal (h : n < 2 ^ 64) : Text.parseU64 (Text.decimal n) = some n := by
  rw [Text.parseU64_of_digits (Text.decimal_ne_nil n) (Text.all_isDigit_decimal n),
    Text.value_decimal, if_pos h]

theorem parseU64_of_parseComponent (h : parseComponent part = some n) :
    Text.parseU64 part = some n := by
  obtain ⟨hne, hdigits, rfl, hle⟩ := of_parseComponent h
  rw [Text.parseU64_of_digits hne hdigits, if_pos (by omega)]

end Numbers

section Core

variable {component component' : Text → Option ℕ} {s : Text} {a b c d : ℕ}

/-- A reader of numbers that reads more reads the same cores, and more. -/
theorem parseCore_mono (h : ∀ part n, component part = some n → component' part = some n)
    (hcore : parseCore component s = some (a, b, c, d)) :
    parseCore component' s = some (a, b, c, d) := by
  unfold parseCore at hcore ⊢
  split at hcore <;> simp only [Option.bind_eq_bind, Option.bind_eq_some_iff, Option.pure_def,
    Option.some.injEq, reduceCtorEq] at hcore ⊢
  · obtain ⟨m, hm, rest⟩ := hcore
    exact ⟨m, h _ _ hm, rest⟩
  · obtain ⟨m, hm, n, hn, rest⟩ := hcore
    exact ⟨m, h _ _ hm, n, h _ _ hn, rest⟩
  · obtain ⟨m, hm, n, hn, k, hk, rest⟩ := hcore
    exact ⟨m, h _ _ hm, n, h _ _ hn, k, h _ _ hk, rest⟩
  · obtain ⟨m, hm, n, hn, k, hk, l, hl, rest⟩ := hcore
    exact ⟨m, h _ _ hm, n, h _ _ hn, k, h _ _ hk, l, h _ _ hl, rest⟩

theorem forall_of_parseCore {P : ℕ → Prop} (zero : P 0)
    (h : ∀ part n, component part = some n → P n)
    (hcore : parseCore component s = some (a, b, c, d)) : P a ∧ P b ∧ P c ∧ P d := by
  unfold parseCore at hcore
  split at hcore <;> simp only [Option.bind_eq_bind, Option.bind_eq_some_iff, Option.pure_def,
    Option.some.injEq, Prod.mk.injEq, reduceCtorEq] at hcore
  · obtain ⟨m, hm, rfl, rfl, rfl, rfl⟩ := hcore
    exact ⟨h _ _ hm, zero, zero, zero⟩
  · obtain ⟨m, hm, n, hn, rfl, rfl, rfl, rfl⟩ := hcore
    exact ⟨h _ _ hm, h _ _ hn, zero, zero⟩
  · obtain ⟨m, hm, n, hn, k, hk, rfl, rfl, rfl, rfl⟩ := hcore
    exact ⟨h _ _ hm, h _ _ hn, h _ _ hk, zero⟩
  · obtain ⟨m, hm, n, hn, k, hk, l, hl, rfl, rfl, rfl, rfl⟩ := hcore
    exact ⟨h _ _ hm, h _ _ hn, h _ _ hk, h _ _ hl⟩

end Core

theorem isWritten_of_identifiers {zeros : Bool} {m : Text} (h : validIdentifiers m zeros) {c : Char}
    (hc : c ∈ m) : IsWritten c := by
  have hjoin : ['.'].intercalate (m.splitOn '.') = m := List.intercalate_splitOn '.'
  rw [← hjoin] at hc
  refine isWritten_of_label (fun id hid => ?_) hc
  exact isIdentifier_of_valid (List.all_eq_true.mp h id hid)

namespace NuGetVersion

variable {v w : NuGetVersion} {input : Text}

/-- What the parts of an accepted version are. -/
structure IsStrict (v : NuGetVersion) : Prop where
  components : ∀ n ∈ v.components, n ≤ 2 ^ 31 - 1
  pre : ∀ id ∈ v.pre, validIdentifier false id
  metadata : ∀ m ∈ v.metadata, validIdentifiers m true
  length : Text.byteLen v.toFullString ≤ maxVersionChars

/-- What the parts of a version that was stored are. -/
structure IsStored (v : NuGetVersion) : Prop where
  components : ∀ n ∈ v.components, n < 2 ^ 64
  pre : ∀ id ∈ v.pre, IsIdentifier id

theorem IsStrict.isStored (h : v.IsStrict) : v.IsStored where
  components n hn := by
    have hle := h.components n hn
    omega
  pre id hid := isIdentifier_of_valid (h.pre id hid)

theorem forall_components {P : ℕ → Prop} (h : P v.major ∧ P v.minor ∧ P v.patch ∧ P v.revision) :
    ∀ n ∈ v.components, P n := by
  intro n hn
  unfold NuGetVersion.components at hn
  split_ifs at hn
  · simp only [List.mem_cons, List.not_mem_nil, or_false] at hn
    rcases hn with rfl | rfl | rfl | rfl
    exacts [h.1, h.2.1, h.2.2.1, h.2.2.2]
  · simp only [List.mem_cons, List.not_mem_nil, or_false] at hn
    rcases hn with rfl | rfl | rfl
    exacts [h.1, h.2.1, h.2.2.1]

/-- How the text of an accepted version comes apart. -/
theorem of_parse (h : parse input = .ok v) :
    v.IsStrict ∧ v.original = trim input ∧ ∃ s preStr core, cutAt '+' (trim input) = (s, v.metadata) ∧
      cutAt '-' s = (core, preStr) ∧ parseCore parseComponent core = some v.core ∧
      preStr.elim [] (·.splitOn '.') = v.pre := by
  unfold parse at h
  simp only at h
  split at h
  · simp at h
  obtain ⟨⟨s, metadata⟩, hcut⟩ : ∃ cut, cutAt '+' (trim input) = cut := ⟨_, rfl⟩
  obtain ⟨⟨core, preStr⟩, hcore⟩ : ∃ cut, cutAt '-' s = cut := ⟨_, rfl⟩
  simp only [hcut, hcore] at h
  split at h
  · simp at h
  next hmetadata =>
  split at h
  · simp at h
  next major minor patch revision hparts =>
  split at h
  · simp at h
  next hpre =>
  split at h
  · simp at h
  next hlength =>
  obtain rfl := Except.ok.inj h
  have hle := forall_of_parseCore (P := (· ≤ 2 ^ 31 - 1)) (by decide)
    (fun part n hn => (of_parseComponent hn).2.2.2) hparts
  refine ⟨⟨forall_components hle, ?_, ?_, ?_⟩, rfl, s, preStr, core, hcut, hcore, hparts, rfl⟩
  · intro id hid
    cases preStr with
    | none => simp at hid
    | some label =>
      have hvalid : validIdentifiers label false := by simpa using hpre
      exact List.all_eq_true.mp hvalid id hid
  · intro m hm
    simp only [Option.mem_def] at hm
    subst hm
    simpa using hmetadata
  · omega

/-- The full string of an accepted version is accepted, as the version it was made from. -/
theorem parse_toFullString (h : v.IsStrict) :
    parse v.toFullString = .ok { v with original := v.toFullString } := by
  have hpre : ∀ id ∈ v.pre, IsIdentifier id := h.isStored.pre
  have hmetadata : ∀ m ∈ v.metadata, ∀ c ∈ m, IsWritten c := fun m hm c hc =>
    isWritten_of_identifiers (h.metadata m hm) hc
  obtain ⟨preStr, hcut, helim, hlabels⟩ := cutAt_labelled hpre
  have hcore := parseCore_coreString (fun n hn => parseComponent_decimal (h.components n hn))
  have hlength := h.length
  have hne : v.toFullString ≠ [] := by
    simp [toFullString, coreString_ne_nil]
  have hguard : (v.toFullString.isEmpty ||
      decide (maxInputChars < Text.byteLen v.toFullString)) = false := by
    have hle : maxVersionChars ≤ maxInputChars := by decide
    simp only [Bool.or_eq_false_iff, List.isEmpty_eq_false_iff, decide_eq_false_iff_not]
    exact ⟨hne, by omega⟩
  have hmetadata' : (v.metadata.any (!validIdentifiers · true)) = false := by
    cases hm : v.metadata with
    | none => rfl
    | some m => simp [h.metadata m hm]
  have hlabel : (preStr.any (!validIdentifiers · false)) = false := by
    cases preStr with
    | none => rfl
    | some label =>
      have hvalid : validIdentifiers label false := by
        rw [validIdentifiers, hlabels label rfl, List.all_eq_true]
        exact h.pre
      simp [hvalid]
  unfold parse
  simp only [trim_toFullString hpre hmetadata, hguard, cutAt_toFullString hpre, hcut, hcore, core,
    hmetadata', hlabel, helim, Bool.false_eq_true, if_false]
  have hsame : NuGetVersion.toFullString ⟨v.major, v.minor, v.patch, v.revision, v.pre,
    v.metadata, v.toFullString⟩ = v.toFullString := rfl
  rw [hsame, if_neg (by omega)]

theorem IsStrict.canonical (h : v.IsStrict) : v.canonical.IsStrict where
  components := h.components
  pre id hid := by
    obtain ⟨id', hid', rfl⟩ := List.mem_map.mp hid
    exact validIdentifier_lower (h.pre id' hid')
  metadata m hm := by simp [NuGetVersion.canonical] at hm
  length := by
    have hle := h.length
    rw [toFullString_canonical]
    have hnormalized : Text.byteLen v.normalized ≤ Text.byteLen v.toFullString := by
      unfold normalized toFullString
      by_cases hpre : v.pre.isEmpty <;> simp [hpre]
    omega

theorem IsStored.canonical (h : v.IsStored) : v.canonical.IsStored where
  components := h.components
  pre id hid := by
    obtain ⟨id', hid', rfl⟩ := List.mem_map.mp hid
    exact (h.pre id' hid').lower

/-- The normalized string of an accepted version is accepted, as the version without its
metadata and in lower case. -/
theorem parse_normalized (h : v.IsStrict) :
    parse v.normalized = .ok { v.canonical with original := v.normalized } := by
  rw [← toFullString_canonical]
  exact parse_toFullString h.canonical

theorem parseU64_lt {t : Text} {n : ℕ} (h : Text.parseU64 t = some n) : n < 2 ^ 64 := by
  unfold Text.parseU64 at h
  simp only at h
  generalize (if t.head? = some '+' then t.tail else t) = digits at h
  split at h
  · simp at h
  split at h
  next hlt => exact Option.some.inj h ▸ hlt
  · simp at h

theorem of_parseStored (h : parseStored input = .ok v) : v.IsStored := by
  unfold parseStored at h
  split at h
  next version hparse =>
    obtain rfl := Except.ok.inj h
    exact (of_parse hparse).1.isStored
  simp only at h
  generalize (if (trim input).head? = some 'v' ∨ (trim input).head? = some 'V'
    then (trim input).tail else trim input) = s at h
  split at h
  · simp at h
  split at h
  · simp at h
  split at h
  · simp at h
  next major minor patch revision hparts =>
  split at h
  · simp at h
  next hpre =>
  obtain rfl := Except.ok.inj h
  constructor
  · exact forall_components (forall_of_parseCore (by decide) (fun _ _ => parseU64_lt) hparts)
  · intro id hid
    have hid' : ¬ (id.isEmpty || !id.all isPreChar) := by
      intro hbad
      exact hpre (List.any_eq_true.mpr ⟨id, hid, hbad⟩)
    simpa [IsIdentifier] using hid'

/-- The text of a stored version without metadata is read as that version. -/
theorem parseStored_toFullString (h : v.IsStored) (hm : v.metadata = none) :
    parseStored v.toFullString = .ok { v with original := v.toFullString } := by
  have hmetadata : ∀ m ∈ v.metadata, ∀ c ∈ m, IsWritten c := by simp [hm]
  have htrim := trim_toFullString h.pre hmetadata
  have hcut := cutAt_toFullString h.pre
  obtain ⟨preStr, hlabelled, helim, -⟩ := cutAt_labelled h.pre
  have hcore := parseCore_coreString (fun n hn => parseU64_decimal (h.components n hn))
  unfold parseStored
  split
  next w hparse =>
    obtain ⟨-, horiginal, s, preStr', core', hcut', hlabelled', hcore', helim'⟩ := of_parse hparse
    rw [htrim] at horiginal
    rw [htrim, hcut, Prod.mk.injEq] at hcut'
    obtain ⟨rfl, hmetadata'⟩ := hcut'
    rw [hlabelled, Prod.mk.injEq] at hlabelled'
    obtain ⟨rfl, rfl⟩ := hlabelled'
    have hsame : v.core = w.core := by
      have hread := parseCore_mono (fun _ _ => parseU64_of_parseComponent) hcore'
      rw [hcore] at hread
      exact Option.some.inj hread
    simp only [core, Prod.mk.injEq] at hsame
    obtain ⟨hmajor, hminor, hpatch, hrevision⟩ := hsame
    have hpre : w.pre = v.pre := helim'.symm.trans helim
    cases w
    simp_all
  next e hparse =>
    have hv : ¬ (v.toFullString.head? = some 'v' ∨ v.toFullString.head? = some 'V') := by
      rintro (hhead | hhead)
      · simpa using head?_toFullString hhead
      · simpa using head?_toFullString hhead
    have hne : v.toFullString.isEmpty = false := by
      simp [toFullString, coreString_ne_nil]
    have hids : (v.pre.any fun id => id.isEmpty || !id.all isPreChar) = false := by
      rw [List.any_eq_false]
      intro id hid
      simp [(h.pre id hid).1, (h.pre id hid).2]
    simp [htrim, hv, hne, hcut, hlabelled, hcore, core, helim, hm, hids]

end NuGetVersion

section Identifiers

variable {a b id : Text}

theorem hashIdentifier_lower (id : Text) : hashIdentifier (Text.lower id) = hashIdentifier id := by
  simp [hashIdentifier, Text.parseU64_lower, Text.lower_lower]

theorem not_plus_mem (h : IsIdentifier id) : '+' ∉ id := by
  intro hmem
  have hchar := List.all_eq_true.mp h.2 '+' hmem
  revert hchar
  decide

theorem head_ne_zero {c : Char} {rest : Text} (hid : validIdentifier false (c :: rest))
    (hdigits : (c :: rest).all Char.isDigit) : c :: rest = ['0'] ∨ c ≠ '0' := by
  simp only [validIdentifier, hdigits, Bool.and_eq_true] at hid
  by_cases hc : c = '0'
  · left
    simpa [hc] using hid.2
  · exact Or.inr hc

/-- A number of the label is written the one way it has. -/
theorem eq_decimal_value (hid : validIdentifier false id) (hdigits : id.all Char.isDigit) :
    id = Text.decimal (Text.value id) := by
  cases id with
  | nil => exact ((isIdentifier_of_valid hid).1 rfl).elim
  | cons c rest =>
    rcases head_ne_zero hid hdigits with hzero | hc
    · rw [hzero]
      rfl
    · exact (Text.decimal_value hdigits hc).1.symm

theorem digits_of_parseU64 {n : ℕ} (hid : IsIdentifier id) (h : Text.parseU64 id = some n) :
    id.all Char.isDigit ∧ Text.value id = n := by
  have hdigits : id.all Char.isDigit := by
    by_contra hnot
    rw [Text.parseU64_eq_none (not_plus_mem hid) (by simpa using hnot)] at h
    simp at h
  rw [Text.parseU64_of_digits hid.1 hdigits] at h
  split at h
  · exact ⟨hdigits, Option.some.inj h⟩
  · simp at h

/-- Identifiers that are compared as one differ in case only. -/
theorem lower_eq_of_hashIdentifier (ha : validIdentifier false a) (hb : validIdentifier false b)
    (h : hashIdentifier a = hashIdentifier b) : Text.lower a = Text.lower b := by
  unfold hashIdentifier at h
  cases hna : Text.parseU64 a with
  | none =>
    cases hnb : Text.parseU64 b with
    | none => simpa [hna, hnb] using h
    | some n => simp [hna, hnb] at h
  | some m =>
    cases hnb : Text.parseU64 b with
    | none => simp [hna, hnb] at h
    | some n =>
      have hmn : m = n := by simpa [hna, hnb] using h
      obtain ⟨hda, hva⟩ := digits_of_parseU64 (isIdentifier_of_valid ha) hna
      obtain ⟨hdb, hvb⟩ := digits_of_parseU64 (isIdentifier_of_valid hb) hnb
      rw [eq_decimal_value ha hda, eq_decimal_value hb hdb, hva, hvb, hmn]

end Identifiers

namespace NuGetVersion

variable {a b v : NuGetVersion}

theorem cmp_canonical (v : NuGetVersion) : cmp v.canonical v = .eq := by
  rw [cmp_eq_eq]
  refine ⟨rfl, ?_⟩
  simp [NuGetVersion.canonical, Function.comp_def, hashIdentifier_lower]

/-- Labels that are compared as one differ in case only. -/
theorem lower_eq_of_hashIdentifiers {xs ys : List Text} (hx : ∀ id ∈ xs, validIdentifier false id)
    (hy : ∀ id ∈ ys, validIdentifier false id)
    (h : xs.map hashIdentifier = ys.map hashIdentifier) :
    xs.map Text.lower = ys.map Text.lower := by
  induction xs generalizing ys with
  | nil =>
    rw [List.map_nil, eq_comm, List.map_eq_nil_iff] at h
    rw [h]
  | cons x xs ih =>
    cases ys with
    | nil => simp at h
    | cons y ys =>
      simp only [List.map_cons, List.cons.injEq] at h ⊢
      constructor
      · exact lower_eq_of_hashIdentifier (hx x List.mem_cons_self) (hy y List.mem_cons_self) h.1
      · exact ih (fun id hid => hx id (List.mem_cons_of_mem x hid))
          (fun id hid => hy id (List.mem_cons_of_mem y hid)) h.2

theorem normalized_eq_of_core (hcore : a.core = b.core)
    (hlower : a.pre.map Text.lower = b.pre.map Text.lower) : a.normalized = b.normalized := by
  rw [← toFullString_canonical, ← toFullString_canonical]
  simp only [core, Prod.mk.injEq] at hcore
  obtain ⟨hmajor, hminor, hpatch, hrevision⟩ := hcore
  simp [toFullString, coreString, NuGetVersion.canonical, hlower, hmajor, hminor, hpatch, hrevision]

/-- Accepted versions are equal exactly when their normalized strings are. -/
theorem cmp_eq_iff_normalized (ha : a.IsStrict) (hb : b.IsStrict) :
    cmp a b = .eq ↔ a.normalized = b.normalized := by
  constructor
  · intro h
    obtain ⟨hcore, hids⟩ := cmp_eq_eq.mp h
    exact normalized_eq_of_core hcore (lower_eq_of_hashIdentifiers ha.pre hb.pre hids)
  · intro h
    have hparse := parse_normalized ha
    rw [h, parse_normalized hb, Except.ok.injEq, NuGetVersion.mk.injEq] at hparse
    obtain ⟨hmajor, hminor, hpatch, hrevision, hlower, -⟩ := hparse
    rw [cmp_eq_eq]
    constructor
    · exact Prod.ext hmajor.symm (Prod.ext hminor.symm (Prod.ext hpatch.symm hrevision.symm))
    · have hids := congrArg (List.map hashIdentifier) hlower
      simpa [NuGetVersion.canonical, Function.comp_def, hashIdentifier_lower] using hids.symm

/-- The order, equality, hash and texts of accepted versions agree; those of stored versions
agree as far as they serve as keys. -/
theorem version_identity :
    ((∀ a, cmp a a = .eq) ∧ (∀ a b, cmp b a = (cmp a b).swap) ∧
      ∀ a b c, (cmp a b).isLE → (cmp b c).isLE → (cmp a c).isLE) ∧
    (∀ s t a b, parse s = .ok a → parse t = .ok b →
      (cmp a b = .eq ↔ a.normalized = b.normalized) ∧
        (a.normalized = b.normalized → a.hash = b.hash)) ∧
    (∀ s a, parse s = .ok a →
      (∃ w, parse a.normalized = .ok w ∧ cmp w a = .eq ∧ w.normalized = a.normalized) ∧
        ∃ w, parse a.toFullString = .ok w ∧ w.toFullString = a.toFullString) ∧
    (∀ s a, parseStored s = .ok a →
      ∃ w, parseStored a.normalized = .ok w ∧ w.normalized = a.normalized) ∧
    ∀ s t a b, parseStored s = .ok a → parseStored t = .ok b → cmp a b = .eq →
      a.hash = b.hash := by
  refine ⟨⟨?_, ?_, ?_⟩, ?_, ?_, ?_, ?_⟩
  · intro a
    exact Std.ReflCmp.compare_self
  · intro a b
    exact Std.OrientedCmp.eq_swap
  · intro a b c hab hbc
    exact Std.TransCmp.isLE_trans hab hbc
  · intro s t a b ha hb
    have hiff := cmp_eq_iff_normalized (of_parse ha).1 (of_parse hb).1
    exact ⟨hiff, fun h => hash_eq_of_cmp (hiff.mpr h)⟩
  · intro s a ha
    have hstrict := (of_parse ha).1
    constructor
    · exact ⟨_, parse_normalized hstrict, cmp_canonical a, normalized_canonical a⟩
    · exact ⟨_, parse_toFullString hstrict, rfl⟩
  · intro s a ha
    have hstored := (of_parseStored ha).canonical
    have hparse := parseStored_toFullString hstored rfl
    rw [toFullString_canonical] at hparse
    exact ⟨_, hparse, normalized_canonical a⟩
  · intro s t a b _ _ h
    exact hash_eq_of_cmp h

end NuGetVersion

end YaNuget.Versions
