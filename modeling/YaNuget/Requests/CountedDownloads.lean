import YaNuget.Data.Text
import YaNuget.Requests.Files
import Mathlib.Data.List.TakeWhile

/-!
# Counted downloads

Whether a request counts as a download is read off its headers alone. What is
sent depends on the file as well: a range may turn out to be all of it, or may
not be honoured.
-/
namespace YaNuget

open Policy

inductive Method where
  | get
  | head
  | other (name : String)
  deriving DecidableEq, Repr

def trimStart (s : String) : String := String.ofList (s.toList.dropWhile Policy.isWhitespace)

/-- Whether a request for a file counts as one download. -/
def countsAsDownload (method : Method) (headers : FileHeaders) : Bool :=
  if method ≠ .get then false
  else
    match headers.range with
    | none => true
    | some range =>
      (stripPrefix (Policy.trim range) "bytes=").any fun spec =>
        "0-".toList.isPrefixOf (trimStart spec).toList

/-- The body includes the first byte of the file. -/
def Sent.startsFile : Sent → Bool
  | .whole _ => true
  | .part start _ _ _ => start = 0
  | .notModified | .unsatisfiable _ => false

section Parts

variable {s p t a b : String} {sep : Char}

theorem stripPrefix_eq_some : stripPrefix s p = some t ↔ s.toList = p.toList ++ t.toList := by
  unfold stripPrefix
  split_ifs with h
  · obtain ⟨rest, hrest⟩ := List.isPrefixOf_iff_prefix.mp h
    rw [Option.some.injEq, ← hrest, List.drop_left, List.append_cancel_left_eq, eq_comm]
    constructor
    · rintro rfl
      rw [String.toList_ofList]
    · rintro rfl
      rw [String.ofList_toList]
  · simp only [false_iff]
    intro heq
    apply h
    rw [List.isPrefixOf_iff_prefix, heq]
    exact List.prefix_append _ _

theorem splitOnce_of_append {a b : Text} (h : s.toList = a ++ sep :: b) (ha : sep ∉ a) :
    splitOnce sep s = some (String.ofList a, String.ofList b) := by
  have htake : s.toList.takeWhile (· ≠ sep) = a := by
    rw [h, List.takeWhile_append_of_pos, List.takeWhile_cons_of_neg (by simp), List.append_nil]
    intro c hc
    rw [decide_eq_true_eq]
    rintro rfl
    exact ha hc
  unfold splitOnce
  simp only [htake]
  simp only [h, List.drop_left]

theorem splitOnce_of_not_mem (h : sep ∉ s.toList) : splitOnce sep s = none := by
  have htake : s.toList.takeWhile (· ≠ sep) = s.toList := by
    rw [List.takeWhile_eq_self_iff]
    intro c hc
    rw [decide_eq_true_eq]
    rintro rfl
    exact h hc
  unfold splitOnce
  simp only [htake, List.drop_length]

theorem exists_trim (s : String) : ∃ before after : Text,
    (∀ c ∈ before, Policy.isWhitespace c = true) ∧ (∀ c ∈ after, Policy.isWhitespace c = true) ∧
      s.toList = before ++ ((Policy.trim s).toList ++ after) := by
  refine ⟨s.toList.takeWhile Policy.isWhitespace,
    ((s.toList.dropWhile Policy.isWhitespace).reverse.takeWhile Policy.isWhitespace).reverse,
    fun c hc => List.mem_takeWhile_imp hc,
    fun c hc => List.mem_takeWhile_imp (List.mem_reverse.mp hc), ?_⟩
  unfold Policy.trim
  rw [String.toList_ofList, ← List.reverse_append, List.takeWhile_append_dropWhile,
    List.reverse_reverse, List.takeWhile_append_dropWhile]

end Parts

/-- The header asks for one range, from `first` to `last`. -/
structure IsRange (range first last : String) : Prop where
  eq : range.toList = "bytes=".toList ++ (first.toList ++ '-' :: last.toList)
  noDash : '-' ∉ first.toList
  noComma : ',' ∉ first.toList ∧ ',' ∉ last.toList

/-- The header asks for bytes from position `0`, as such. -/
def FromZero (range : String) : Prop :=
  ∃ gap rest : Text, (∀ c ∈ gap, Policy.isWhitespace c = true) ∧
    (Policy.trim range).toList = "bytes=".toList ++ (gap ++ ("0-".toList ++ rest))

def StartsLater (total : ℕ) (first last : String) : Prop :=
  total = 0 ∨
    (Policy.trim first = "" ∧ ∃ n, rangePos (Policy.trim last) = some n ∧ (n = 0 ∨ n < total)) ∨
    ∃ n, rangePos (Policy.trim first) = some n ∧ 0 < n ∧
      (Policy.trim last = "" ∨ ∃ m, rangePos (Policy.trim last) = some m ∧ n ≤ m)

/-- What is sent for the range is the whole file or its beginning. -/
def RangeResult.startsFile : RangeResult → Bool
  | .none => true
  | .satisfiable start _ => start = 0
  | .unsatisfiable => false

section Ranges

variable {headers : FileHeaders} {range first last : String} {total : ℕ}

theorem parseRange_of_isRange (hrange : headers.range = some range) (h : IsRange range first last) :
    parseRange headers total = rangeOf (first, last) total := by
  have hprefix : stripPrefix range "bytes=" =
      some (String.ofList (first.toList ++ '-' :: last.toList)) := by
    rw [stripPrefix_eq_some]
    simpa using h.eq
  have hsplit : splitOnce '-' (String.ofList (first.toList ++ '-' :: last.toList)) =
      some (first, last) := by
    have hat := splitOnce_of_append
      (String.toList_ofList (l := first.toList ++ '-' :: last.toList)) h.noDash
    rwa [String.ofList_toList, String.ofList_toList] at hat
  have hcomma : (first.toList ++ '-' :: last.toList).contains ',' = false := by
    simp [h.noComma.1, h.noComma.2]
  unfold parseRange
  simp only [hrange, Option.bind_some, hprefix, String.toList_ofList, hcomma, hsplit,
    Bool.false_eq_true, if_false]

theorem parseRange_of_not_isRange (hrange : headers.range = some range)
    (h : ∀ first last, ¬ IsRange range first last) : parseRange headers total = .none := by
  unfold parseRange
  rw [hrange, Option.bind_some]
  cases hprefix : stripPrefix range "bytes=" with
  | none => rfl
  | some spec =>
    rw [stripPrefix_eq_some] at hprefix
    by_cases hcomma : ',' ∈ spec.toList
    · simp [hcomma]
    · by_cases hdash : '-' ∈ spec.toList
      · exfalso
        obtain ⟨first, last, heq, hnot⟩ := List.eq_append_cons_of_mem hdash
        rw [heq, List.mem_append, List.mem_cons, not_or, not_or] at hcomma
        apply h (String.ofList first) (String.ofList last)
        constructor
        · simpa [heq] using hprefix
        · rwa [String.toList_ofList]
        · rw [String.toList_ofList, String.toList_ofList]
          exact ⟨hcomma.1, hcomma.2.2⟩
      · simp [hcomma, splitOnce_of_not_mem hdash]

theorem rangeOf_startsFile :
    (rangeOf (first, last) total).startsFile = false ↔ StartsLater total first last := by
  unfold rangeOf StartsLater
  by_cases htotal : total = 0
  · simp [htotal, RangeResult.startsFile]
  · simp only [htotal, if_false, false_or, String.isEmpty_iff]
    by_cases hfirst : Policy.trim first = ""
    · have hzero : rangePos "" = none := rfl
      simp only [hfirst, if_true, hzero, reduceCtorEq, false_and, exists_false, or_false, true_and]
      cases hn : rangePos (Policy.trim last) with
      | none => simp [RangeResult.startsFile]
      | some n =>
        cases n with
        | zero => simp [RangeResult.startsFile]
        | succ n => simp [RangeResult.startsFile]; omega
    · by_cases hlast : Policy.trim last = ""
      · simp only [hfirst, if_false, hlast, if_true, false_and, false_or, true_or, and_true]
        cases hn : rangePos (Policy.trim first) with
        | none => simp [RangeResult.startsFile]
        | some n =>
          by_cases hle : n ≤ total - 1
          · simp [hle, RangeResult.startsFile, Nat.pos_iff_ne_zero]
          · have hpos : 0 < n := by omega
            simp [hle, RangeResult.startsFile, hpos]
      · simp only [hfirst, if_false, hlast, false_and, false_or]
        cases hn : rangePos (Policy.trim first) with
        | none => simp [RangeResult.startsFile]
        | some n =>
          cases hm : rangePos (Policy.trim last) with
          | none => simp [RangeResult.startsFile]
          | some m =>
            by_cases hlt : m < n
            · simp [hlt, RangeResult.startsFile, Nat.not_le.mpr hlt]
            · have hnm : n ≤ m := Nat.not_lt.mp hlt
              by_cases hle : n ≤ total - 1
              · simp [hlt, hle, hnm, RangeResult.startsFile, Nat.pos_iff_ne_zero]
              · have hpos : 0 < n := by omega
                simp [hlt, hle, hnm, RangeResult.startsFile, hpos]

theorem parseRange_startsFile (hrange : headers.range = some range) :
    (parseRange headers total).startsFile = false ↔
      ∃ first last, IsRange range first last ∧ StartsLater total first last := by
  constructor
  · intro hlater
    by_cases h : ∃ first last, IsRange range first last
    · obtain ⟨first, last, h⟩ := h
      rw [parseRange_of_isRange hrange h, rangeOf_startsFile] at hlater
      exact ⟨first, last, h, hlater⟩
    · have hnone : ∀ first last, ¬ IsRange range first last := fun first last hr => h ⟨first, last, hr⟩
      rw [parseRange_of_not_isRange hrange hnone] at hlater
      cases hlater
  · rintro ⟨first, last, h, hlater⟩
    rw [parseRange_of_isRange hrange h]
    exact rangeOf_startsFile.mpr hlater

/-- A range from position `0` is one that starts the file, unless this is empty. -/
theorem not_startsLater (hzero : FromZero range) (h : IsRange range first last) (htotal : total ≠ 0) :
    ¬ StartsLater total first last := by
  obtain ⟨gap, rest, hgap, htrim⟩ := hzero
  obtain ⟨before, after, hbefore, -, hsplit⟩ := exists_trim range
  have hnil : before = [] := by
    cases before with
    | nil => rfl
    | cons c before =>
      have hb : c = 'b' := by
        have heq := hsplit.symm.trans h.eq
        simpa using congrArg List.head? heq
      have hblank := hbefore c List.mem_cons_self
      rw [hb] at hblank
      cases hblank
  have hfirst : first.toList = gap ++ ['0'] := by
    have heq : first.toList ++ '-' :: last.toList = (gap ++ ['0']) ++ '-' :: (rest ++ after) := by
      have hboth := h.eq.symm.trans hsplit
      rw [hnil, htrim] at hboth
      simpa using hboth
    have hdash : '-' ∉ gap ++ ['0'] := by
      intro hmem
      rcases List.mem_append.mp hmem with hmem | hmem
      · cases hgap '-' hmem
      · cases List.mem_singleton.mp hmem
    have hsame := Text.splitOnce_append h.noDash (b := last.toList)
    rw [heq, Text.splitOnce_append hdash, Option.some.injEq, Prod.mk.injEq] at hsame
    exact hsame.1.symm
  have htrim : Policy.trim first = "0" := by
    unfold Policy.trim
    rw [hfirst, List.dropWhile_append_of_pos hgap]
    rfl
  have hpos : rangePos "0" = some 0 := rfl
  unfold StartsLater
  rw [htrim, hpos]
  simp [htotal]

end Ranges

section Counted

variable {headers : FileHeaders} {about : FileMeta} {range : String}

theorem countsAsDownload_range (hrange : headers.range = some range) :
    countsAsDownload .get headers = true ↔ FromZero range := by
  unfold countsAsDownload
  simp only [hrange, ne_eq, not_true_eq_false, if_false]
  rw [Option.any_eq_true]
  simp only [stripPrefix_eq_some, trimStart, String.toList_ofList, List.isPrefixOf_iff_prefix]
  constructor
  · rintro ⟨spec, hspec, rest, hrest⟩
    refine ⟨spec.toList.takeWhile Policy.isWhitespace, rest,
      fun c hc => List.mem_takeWhile_imp hc, ?_⟩
    rw [hspec, hrest, List.takeWhile_append_dropWhile]
  · rintro ⟨gap, rest, hgap, htrim⟩
    have hspec : (String.ofList (gap ++ ("0-".toList ++ rest))).toList =
        gap ++ ("0-".toList ++ rest) := String.toList_ofList
    refine ⟨String.ofList (gap ++ ("0-".toList ++ rest)), by simpa using htrim, rest, ?_⟩
    rw [hspec, List.dropWhile_append_of_pos hgap]
    rfl

/-- A file is sent from its start unless the client has it, or an honoured range leads
elsewhere. -/
theorem startsFile_serveOpenFile (bytes : Content) :
    (serveOpenFile bytes headers about).sent.startsFile = true ↔
      ¬ (about.etag.map quotedTag).any (ifNoneMatchHits headers) = true ∧
        (ifRangeHolds headers (about.etag.map quotedTag) about.lastModified = true →
          (parseRange headers bytes.length).startsFile = true) := by
  unfold serveOpenFile
  simp only
  split_ifs with hmatch hrange
  · simp [hmatch, Sent.startsFile]
  · cases hparse : parseRange headers bytes.length <;>
      simp [hmatch, hrange, Sent.startsFile, RangeResult.startsFile]
  · simp [hmatch, hrange, Sent.startsFile]

/-- When a `GET` is counted as it is answered. A range that asks for position `0` does not lead
into an empty file, and any other header asks for a later byte, and is honoured. -/
def CountedAsSent (headers : FileHeaders) (about : FileMeta) (total : ℕ) : Prop :=
  let unchanged := (about.etag.map quotedTag).any (ifNoneMatchHits headers) = true
  let honoured := ifRangeHolds headers (about.etag.map quotedTag) about.lastModified = true
  match headers.range with
  | none => ¬ unchanged
  | some range =>
    (FromZero range ∧ ¬ unchanged ∧
      ¬ (total = 0 ∧ honoured ∧ ∃ first last, IsRange range first last)) ∨
    (¬ FromZero range ∧ (unchanged ∨ honoured ∧
      ∃ first last, IsRange range first last ∧ StartsLater total first last))

end Counted

/-- A request is counted as the start of a download, or not, as it is answered: exactly where its
headers meet the condition. -/
theorem counted_iff (method : Method) (headers : FileHeaders) (about : FileMeta) (bytes : Content) :
    (countsAsDownload method headers = true ↔
      method = .get ∧ (serveOpenFile bytes headers about).sent.startsFile = true) ↔
    (method = .get → CountedAsSent headers about bytes.length) := by
  by_cases hmethod : method = .get
  · subst hmethod
    rw [startsFile_serveOpenFile]
    unfold CountedAsSent
    cases hrange : headers.range with
    | none =>
      have hcounts : countsAsDownload .get headers = true := by simp [countsAsDownload, hrange]
      have hparse : parseRange headers bytes.length = .none := by simp [parseRange, hrange]
      simp [hcounts, hparse, RangeResult.startsFile]
    | some range =>
      have hlater : (parseRange headers bytes.length).startsFile = false ↔ _ :=
        parseRange_startsFile hrange
      have hzero : FromZero range → ((∃ first last, IsRange range first last ∧
          StartsLater bytes.length first last) ↔
          bytes.length = 0 ∧ ∃ first last, IsRange range first last) := by
        intro hfrom
        constructor
        · rintro ⟨first, last, h, hstarts⟩
          by_contra hnot
          have htotal : bytes.length ≠ 0 := fun heq => hnot ⟨heq, first, last, h⟩
          exact not_startsLater hfrom h htotal hstarts
        · rintro ⟨heq, first, last, h⟩
          exact ⟨first, last, h, .inl heq⟩
      rw [countsAsDownload_range hrange, ← Bool.not_eq_false (parseRange headers _).startsFile, hlater]
      by_cases hfrom : FromZero range
      · rw [hzero hfrom]
        simp only [hfrom, true_and, true_iff, forall_const, not_true_eq_false, false_and, or_false]
        rw [and_congr_right_iff]
        rintro -
        constructor
        · rintro h ⟨hempty, hhonoured, hrange⟩
          exact h hhonoured ⟨hempty, hrange⟩
        · rintro h hhonoured ⟨hempty, hrange⟩
          exact h ⟨hempty, hhonoured, hrange⟩
      · simp only [hfrom, true_and, false_iff, forall_const, not_false_eq_true, false_and, false_or]
        rw [not_and_or, not_not, Classical.not_imp, not_not]
  · simp [countsAsDownload, hmethod]

/-- A client goes on with a download, and is sent all of a file that has changed since. -/
theorem changed_file_not_counted :
    ¬ (countsAsDownload .get ⟨some "bytes=2-", some "\"old\"", none⟩ = true ↔
      Method.get = .get ∧ (serveOpenFile [1, 2, 3, 4] ⟨some "bytes=2-", some "\"old\"", none⟩
        ⟨some "new", ⟨false, false⟩, none⟩).sent.startsFile = true) := by
  decide +kernel

end YaNuget
