import YaNuget.Data.Outcomes
import YaNuget.Versions.Precedence
import YaNuget.Versions.VersionRange

/-!
# The meaning of a version range

The normalized form of an accepted range is read back as a range of the same
versions, and the best match of a range is the best of the versions in it.
-/
namespace YaNuget.Versions

open Orderings Outcomes

section Text

/-- What starts and ends with other characters than spaces is not trimmed. -/
theorem trim_bracketed {c d : Char} {t : Text} (hc : isWhitespace c = false)
    (hd : isWhitespace d = false) : trim (c :: (t ++ [d])) = c :: (t ++ [d]) := by
  have hfront : (c :: (t ++ [d])).dropWhile isWhitespace = c :: (t ++ [d]) := by
    simp [hc]
  have hback : (c :: (t ++ [d])).reverse = d :: (c :: t).reverse := by simp
  unfold trim
  rw [hfront, hback, List.dropWhile_cons_of_neg (by simp [hd]), ← hback, List.reverse_reverse]

theorem not_isWritten {c : Char} (h : c ∈ ['[', ']', '(', ')', '*']) : ¬ IsWritten c := by
  simp only [List.mem_cons, List.not_mem_nil, or_false] at h
  rcases h with rfl | rfl | rfl | rfl | rfl <;> decide

end Text

namespace NuGetVersion

variable {v : NuGetVersion}

theorem isWritten_normalized (h : v.IsStrict) {c : Char} (hc : c ∈ v.normalized) : IsWritten c := by
  have hpre : ∀ id ∈ v.canonical.pre, IsIdentifier id := h.canonical.isStored.pre
  have hfull : v.normalized = v.canonical.coreString ++ v.canonical.label := by
    rw [← toFullString_canonical]
    simp [toFullString, NuGetVersion.canonical, label]
  rw [hfull] at hc
  exact isWritten_labelled hpre hc

theorem byteLen_normalized (h : v.IsStrict) : Text.byteLen v.normalized ≤ maxVersionChars := by
  rw [← toFullString_canonical]
  exact h.canonical.length

theorem trim_normalized (h : v.IsStrict) : trim v.normalized = v.normalized :=
  Text.trim_eq_self fun _ hc => (isWritten_normalized h hc).not_whitespace

theorem normalized_ne_nil : v.normalized ≠ [] := by
  simp [normalized, coreString_ne_nil]

end NuGetVersion

namespace VersionRange

variable {r r' : VersionRange} {input : Text}

/-- The same end of a range, under another spelling of its version. -/
def SameBound : Option Bound → Option Bound → Prop
  | none, none => True
  | some b, some b' => NuGetVersion.cmp b.version b'.version = .eq ∧ b.inclusive = b'.inclusive
  | _, _ => False

theorem contains_congr (hmin : SameBound r.min r'.min) (hmax : SameBound r.max r'.max)
    (v : NuGetVersion) : r.contains v = r'.contains v := by
  have side {b b' : Bound} (h : NuGetVersion.cmp b.version b'.version = .eq) :
      NuGetVersion.cmp v b.version = NuGetVersion.cmp v b'.version :=
    Std.TransCmp.congr_right h
  unfold contains
  congr 1
  · cases hlo : r.min with
    | none => cases hlo' : r'.min <;> simp_all [SameBound]
    | some b =>
      cases hlo' : r'.min with
      | none => simp_all [SameBound]
      | some b' =>
        rw [hlo, hlo'] at hmin
        simp only [side hmin.1, hmin.2]
  · cases hhi : r.max with
    | none => cases hhi' : r'.max <;> simp_all [SameBound]
    | some b =>
      cases hhi' : r'.max with
      | none => simp_all [SameBound]
      | some b' =>
        rw [hhi, hhi'] at hmax
        simp only [side hmax.1, hmax.2]

/-- What the bounds of an accepted range are. -/
structure IsRange (r : VersionRange) : Prop where
  min : ∀ b ∈ r.min, b.version.IsStrict
  max : ∀ b ∈ r.max, b.version.IsStrict
  nonempty : r.isEmpty = false

theorem of_parseBound {t : Text} {inclusive : Bool} {b : Option Bound}
    (h : parseBound input t inclusive = .ok b) : ∀ b' ∈ b, b'.version.IsStrict := by
  unfold parseBound at h
  split at h
  · obtain rfl := Except.ok.inj h
    simp
  split at h
  · simp at h
  next version hparse =>
    obtain rfl := Except.ok.inj h
    intro b' hb'
    obtain rfl := Option.some.inj hb'
    exact (NuGetVersion.of_parse hparse).1

theorem of_parseInner {inner : Text} {minInclusive maxInclusive : Bool}
    (h : parseInner input inner minInclusive maxInclusive = .ok r) :
    (∀ b ∈ r.min, b.version.IsStrict) ∧ ∀ b ∈ r.max, b.version.IsStrict := by
  unfold parseInner at h
  split at h
  · split at h
    · simp at h
    split at h
    · simp at h
    next version hparse =>
      obtain rfl := Except.ok.inj h
      have hstrict := (NuGetVersion.of_parse hparse).1
      simp [exact, hstrict]
  next lo hi hsplit =>
    split at h
    · simp at h
    split at h
    · simp at h
    rw [bind_eq_ok] at h
    obtain ⟨min, hmin, h⟩ := h
    rw [bind_eq_ok] at h
    obtain ⟨max, hmax, h⟩ := h
    split at h
    · simp at h
    obtain rfl := Except.ok.inj h
    exact ⟨of_parseBound hmin, of_parseBound hmax⟩

theorem of_parse (h : parse input = .ok r) : r.IsRange := by
  unfold parse at h
  simp only at h
  split at h
  · simp at h
  split at h
  · obtain rfl := Except.ok.inj h
    constructor <;> simp [any, isEmpty]
  split at h
  · split at h
    · simp at h
    split at h
    · simp at h
    next version hparse =>
      obtain rfl := Except.ok.inj h
      have hstrict := (NuGetVersion.of_parse hparse).1
      constructor <;> simp [atLeast, isEmpty, hstrict]
  · split at h
    · simp at h
    split at h
    · simp at h
    rw [bind_eq_ok] at h
    obtain ⟨range, hinner, h⟩ := h
    split at h
    · simp at h
    next hnonempty =>
      obtain rfl := Except.ok.inj h
      have hbounds := of_parseInner hinner
      exact ⟨hbounds.1, hbounds.2, by simpa using hnonempty⟩

section RoundTrip

def canonicalBound (b : Bound) : Bound :=
  ⟨{ b.version.canonical with original := b.version.normalized }, b.inclusive⟩

def boundText (b : Option Bound) : Text := b.elim [] (·.version.normalized)

theorem cmp_canonicalBound (b : Bound) :
    NuGetVersion.cmp (canonicalBound b).version b.version = .eq :=
  NuGetVersion.cmp_canonical b.version

theorem sameBound_canonical (b : Option Bound) : SameBound (b.map canonicalBound) b := by
  cases b with
  | none => trivial
  | some b => exact ⟨cmp_canonicalBound b, rfl⟩

theorem isWritten_boundText {b : Option Bound} (h : ∀ b' ∈ b, b'.version.IsStrict) {c : Char}
    (hc : c ∈ boundText b) : IsWritten c := by
  cases b with
  | none => simp [boundText] at hc
  | some b => exact NuGetVersion.isWritten_normalized (h b rfl) hc

theorem byteLen_boundText {b : Option Bound} (h : ∀ b' ∈ b, b'.version.IsStrict) :
    Text.byteLen (boundText b) ≤ maxVersionChars := by
  cases b with
  | none => simp [boundText, Text.byteLen]
  | some b => exact NuGetVersion.byteLen_normalized (h b rfl)

theorem parseBound_boundText {b : Option Bound} (h : ∀ b' ∈ b, b'.version.IsStrict) :
    parseBound input (boundText b) (b.any (·.inclusive)) = .ok (b.map canonicalBound) := by
  cases b with
  | none => rfl
  | some b =>
    have hstrict := h b rfl
    have hne : b.version.normalized.isEmpty = false := by
      simpa using NuGetVersion.normalized_ne_nil
    simp [parseBound, boundText, hne, NuGetVersion.trim_normalized hstrict,
      NuGetVersion.parse_normalized hstrict, canonicalBound]

theorem parseInner_pair (hrange : r.IsRange) (hsome : r.min ≠ none ∨ r.max ≠ none) :
    parseInner input (boundText r.min ++ ',' :: ' ' :: boundText r.max)
      (r.min.any (·.inclusive)) (r.max.any (·.inclusive)) =
        .ok ⟨r.min.map canonicalBound, r.max.map canonicalBound⟩ := by
  have hmin {c : Char} (hc : c ∈ boundText r.min) := isWritten_boundText hrange.min hc
  have hmax {c : Char} (hc : c ∈ boundText r.max) := isWritten_boundText hrange.max hc
  have hcomma : ¬ IsWritten ',' := by decide
  have hlo : ',' ∉ boundText r.min := fun hc => hcomma (hmin hc)
  have hhi : ',' ∉ ' ' :: boundText r.max := by
    simp only [List.mem_cons, not_or]
    exact ⟨by decide, fun hc => hcomma (hmax hc)⟩
  have htrim : trim (boundText r.min) = boundText r.min :=
    Text.trim_eq_self fun _ hc => (hmin hc).not_whitespace
  have htrim' : trim (' ' :: boundText r.max) = boundText r.max :=
    Text.trim_space fun _ hc => (hmax hc).not_whitespace
  have hempty (b : Option Bound) : (boundText b).isEmpty = b.isNone := by
    cases b with
    | none => rfl
    | some b => simp [boundText, NuGetVersion.normalized_ne_nil]
  have hne : ((boundText r.min).isEmpty && (boundText r.max).isEmpty) = false := by
    rw [hempty, hempty]
    cases hlo : r.min <;> cases hhi : r.max <;> simp_all
  have hopen (b : Option Bound) :
      ((b.map canonicalBound).isNone && b.any (·.inclusive)) = false := by
    cases b <;> simp
  unfold parseInner
  rw [Text.splitOnce_append hlo]
  simp only [htrim, htrim', hhi, hne, if_false, Bool.false_eq_true,
    parseBound_boundText hrange.min, parseBound_boundText hrange.max, ok_bind]
  rw [hopen, hopen]
  rfl

theorem parse_bracketed {inner : Text} {lo hi : Bool} (hlength : Text.byteLen inner ≤ 2 * 256)
    (hinner : ∀ c ∈ inner, c ∉ ['[', ']', '(', ')', '*']) {range : VersionRange}
    (hparse : ∀ input, parseInner input inner lo hi = .ok range) (hrange : range.isEmpty = false) :
    parse ((if lo then '[' else '(') :: (inner ++ [if hi then ']' else ')'])) = .ok range := by
  have hopening : isWhitespace (if lo then '[' else '(') = false := by cases lo <;> decide
  have hclosing : isWhitespace (if hi then ']' else ')') = false := by cases hi <;> decide
  have hinner' : (inner.any (['[', ']', '(', ')', '*'].contains ·)) = false := by
    rw [List.any_eq_false]
    intro c hc
    simpa using hinner c hc
  have hguard : ¬ maxRangeChars <
      Text.byteLen ((if lo then '[' else '(') :: (inner ++ [if hi then ']' else ')'])) := by
    have hsize : (if lo then '[' else '(').utf8Size = 1 := by cases lo <;> rfl
    have hsize' : Text.byteLen [if hi then ']' else ')'] = 1 := by cases hi <;> rfl
    simp only [Text.byteLen_cons, Text.byteLen_append, hsize, hsize', maxRangeChars]
    omega
  unfold parse
  simp only [trim_bracketed hopening hclosing, hguard, if_false, List.getLast?_concat,
    List.dropLast_concat, hinner', Bool.false_eq_true]
  have hread (input : Text) : (parseInner input inner lo hi >>= fun range =>
      if range.isEmpty then .error ⟨input, "no version satisfies it"⟩ else .ok range) =
        .ok range := by
    rw [hparse, ok_bind, if_neg (by simp [hrange])]
  cases lo <;> cases hi <;> exact hread _

theorem isEmpty_canonical (hrange : r.IsRange) :
    isEmpty ⟨r.min.map canonicalBound, r.max.map canonicalBound⟩ = false := by
  have hempty := hrange.nonempty
  unfold isEmpty at hempty ⊢
  cases hlo : r.min with
  | none => rfl
  | some lo =>
    cases hhi : r.max with
    | none => rfl
    | some hi =>
      have hcmp : NuGetVersion.cmp (canonicalBound lo).version (canonicalBound hi).version =
          NuGetVersion.cmp lo.version hi.version := by
        rw [Std.TransCmp.congr_left (cmp_canonicalBound lo),
          Std.TransCmp.congr_right (cmp_canonicalBound hi)]
      rw [hlo, hhi] at hempty
      simp only [Option.map_some, hcmp]
      exact hempty

/-- The text of the two ends is read as these ends. -/
theorem parse_interval (hrange : r.IsRange) (hsome : r.min ≠ none ∨ r.max ≠ none) :
    parse r.interval = .ok ⟨r.min.map canonicalBound, r.max.map canonicalBound⟩ := by
  have hlength : Text.byteLen (boundText r.min ++ ',' :: ' ' :: boundText r.max) ≤ 2 * 256 := by
    have hmin := byteLen_boundText hrange.min
    have hmax := byteLen_boundText hrange.max
    have hcomma : Char.utf8Size ',' = 1 := rfl
    have hspace : Char.utf8Size ' ' = 1 := rfl
    simp only [Text.byteLen_append, Text.byteLen_cons, hcomma, hspace, maxVersionChars] at *
    omega
  have hinner : ∀ c ∈ boundText r.min ++ ',' :: ' ' :: boundText r.max,
      c ∉ ['[', ']', '(', ')', '*'] := by
    intro c hc hbracket
    simp only [List.mem_append, List.mem_cons] at hc
    rcases hc with hc | rfl | rfl | hc
    · exact not_isWritten hbracket (isWritten_boundText hrange.min hc)
    · revert hbracket
      decide
    · revert hbracket
      decide
    · exact not_isWritten hbracket (isWritten_boundText hrange.max hc)
  have hparse := parse_bracketed hlength hinner (fun _ => parseInner_pair hrange hsome)
    (isEmpty_canonical hrange)
  simpa [interval, boundText] using hparse

theorem parse_exact {v : NuGetVersion} (h : v.IsStrict) : parse ('[' :: (v.normalized ++ [']'])) =
    .ok (exact { v.canonical with original := v.normalized }) := by
  have hcomma : ',' ∉ v.normalized := by
    intro hc
    have hwritten := NuGetVersion.isWritten_normalized h hc
    revert hwritten
    decide
  have hlength := NuGetVersion.byteLen_normalized h
  have hinner : ∀ c ∈ v.normalized, c ∉ ['[', ']', '(', ')', '*'] := fun c hc hbracket =>
    not_isWritten hbracket (NuGetVersion.isWritten_normalized h hc)
  refine @parse_bracketed _ true true (Nat.le_trans hlength (by decide)) hinner _ ?_ ?_
  · intro input
    simp [parseInner, Text.splitOnce_eq_none.mpr hcomma, NuGetVersion.trim_normalized h,
      NuGetVersion.parse_normalized h]
  · simp [isEmpty, exact, Std.ReflCmp.compare_self]

/-- The normalized form of a range is read as a range of the same versions. -/
theorem parse_normalized (hrange : r.IsRange) :
    ∃ r', parse r.normalized = .ok r' ∧ ∀ v, r'.contains v = r.contains v := by
  have hinterval (hsome : r.min ≠ none ∨ r.max ≠ none) :
      ∃ r', parse r.interval = .ok r' ∧ ∀ v, r'.contains v = r.contains v :=
    ⟨_, parse_interval hrange hsome,
      contains_congr (sameBound_canonical r.min) (sameBound_canonical r.max)⟩
  have hempty : parse [] = .ok any := rfl
  unfold normalized
  cases hlo : r.min with
  | none =>
    cases hhi : r.max with
    | none =>
      refine ⟨any, hempty, ?_⟩
      apply contains_congr <;> simp [any, SameBound, hlo, hhi]
    | some hi => exact hinterval (by simp [hhi])
  | some lo =>
    cases hhi : r.max with
    | none => exact hinterval (by simp [hlo])
    | some hi =>
      simp only [Bool.and_eq_true, decide_eq_true_eq]
      split_ifs with hexact
      · obtain ⟨⟨hloInclusive, hhiInclusive⟩, hcmp⟩ := hexact
        refine ⟨_, parse_exact (hrange.min lo hlo), ?_⟩
        have hcanonical := NuGetVersion.cmp_canonical lo.version
        apply contains_congr
        · rw [hlo]
          exact ⟨hcanonical, hloInclusive.symm⟩
        · rw [hhi]
          exact ⟨Std.TransCmp.eq_trans hcanonical hcmp, hhiInclusive.symm⟩
      · exact hinterval (by simp [hlo])

end RoundTrip

section BestMatch

variable {available : List NuGetVersion} {pre : Bool} {best : NuGetVersion}

theorem mem_candidates {v : NuGetVersion} :
    v ∈ available.filter (fun v => r.contains v && r.allows pre v) ↔
      v ∈ available ∧ r.contains v ∧ r.allows pre v := by
  simp

theorem bestMatch_eq_none : r.bestMatch available pre = none ↔
    ∀ v ∈ available, ¬ (r.contains v ∧ r.allows pre v) := by
  have hnone : r.bestMatch available pre = none ↔
      available.filter (fun v => r.contains v && r.allows pre v) = [] := by
    unfold bestMatch
    split_ifs
    · exact least_eq_none
    · exact greatest_eq_none
  rw [hnone, List.eq_nil_iff_forall_not_mem]
  simp only [mem_candidates, not_and]

theorem bestMatch_mem (h : r.bestMatch available pre = some best) :
    best ∈ available ∧ r.contains best ∧ r.allows pre best := by
  unfold bestMatch at h
  rw [← mem_candidates]
  split_ifs at h
  · exact (least_spec h).1
  · exact (greatest_spec h).1

theorem bestMatch_lowest (h : r.bestMatch available pre = some best) (hmin : r.min.isSome)
    {v : NuGetVersion} (hv : v ∈ available) (hin : r.contains v) (hallowed : r.allows pre v) :
    (NuGetVersion.cmp best v).isLE := by
  unfold bestMatch at h
  rw [if_pos hmin] at h
  exact (least_spec h).2 v (mem_candidates.mpr ⟨hv, hin, hallowed⟩)

theorem bestMatch_highest (h : r.bestMatch available pre = some best) (hmin : r.min = none)
    {v : NuGetVersion} (hv : v ∈ available) (hin : r.contains v) (hallowed : r.allows pre v) :
    (NuGetVersion.cmp v best).isLE := by
  unfold bestMatch at h
  rw [if_neg (by simp [hmin])] at h
  exact (greatest_spec h).2 v (mem_candidates.mpr ⟨hv, hin, hallowed⟩)

end BestMatch

/-- An accepted range keeps its meaning when it is normalized, and resolves to the best version
in it: to the lowest if it has a lower bound, else to the highest. -/
theorem range_meaning {s : Text} {r : VersionRange} (h : parse s = .ok r) :
    (∃ r', parse r.normalized = .ok r' ∧ ∀ v, r'.contains v = r.contains v) ∧
    ∀ available pre,
      (r.bestMatch available pre = none ↔
        ∀ v ∈ available, ¬ (r.contains v ∧ r.allows pre v)) ∧
      ∀ best, r.bestMatch available pre = some best →
        (best ∈ available ∧ r.contains best ∧ r.allows pre best) ∧
        ∀ v ∈ available, r.contains v → r.allows pre v →
          if r.min.isSome then NuGetVersion.cmp v best ≠ .lt
          else NuGetVersion.cmp best v ≠ .lt := by
  refine ⟨parse_normalized (of_parse h), fun available pre => ⟨bestMatch_eq_none, ?_⟩⟩
  intro best hbest
  refine ⟨bestMatch_mem hbest, fun v hv hin hallowed => ?_⟩
  split_ifs with hmin
  · have hle := bestMatch_lowest hbest hmin hv hin hallowed
    intro hlt
    rw [Std.OrientedCmp.gt_of_lt hlt] at hle
    simp at hle
  · have hle := bestMatch_highest hbest (by simpa using hmin) hv hin hallowed
    intro hlt
    rw [Std.OrientedCmp.gt_of_lt hlt] at hle
    simp at hle

theorem range_meaning_sample :
    ∃ r', parse (exact (NuGetVersion.sampleVersion "rc".toList)).normalized = .ok r' ∧
      ∀ v, r'.contains v = (exact (NuGetVersion.sampleVersion "rc".toList)).contains v :=
  (range_meaning (s := "[1.0.0-rc]".toList)
    (r := exact (NuGetVersion.sampleVersion "rc".toList)) (by decide +kernel)).1

/-- Two versions at most 2.0.0 are listed, and the match is the one that the other precedes. -/
theorem highest_without_lower_bound :
    ∃ r low high, parse "(, 2.0.0]".toList = .ok r ∧ NuGetVersion.parse "1.0.0".toList = .ok low ∧
      NuGetVersion.parse "1.5.0".toList = .ok high ∧
        r.bestMatch [low, high] false = some high ∧ low ∈ [low, high] ∧ r.contains low ∧
          r.allows false low ∧ NuGetVersion.cmp low high = .lt := by
  refine ⟨⟨none, some ⟨⟨2, 0, 0, 0, [], none, "2.0.0".toList⟩, true⟩⟩,
    ⟨1, 0, 0, 0, [], none, "1.0.0".toList⟩, ⟨1, 5, 0, 0, [], none, "1.5.0".toList⟩, ?_⟩
  decide +kernel

end VersionRange

end YaNuget.Versions
