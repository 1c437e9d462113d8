import YaNuget.Internalize.Naming
import YaNuget.Versions.Identity

/-!
# Versions and ids in URLs

A page of a registration is addressed by the id of its package and the versions
it goes from and to, each a segment of the path. What is written into a segment
is read back from it, and a version that is read back is the one it was written
for.
-/
namespace YaNuget.Listings

open Versions Internalize

/-- The characters legal in ids and versions. -/
def isKept (c : Char) : Bool := c.isAlphanum || c ∈ ['.', '-', '_', '~']

def hexDigit (n : ℕ) : Char := if n < 10 then Char.ofNat (48 + n) else Char.ofNat (55 + n)

/-- A segment with its other characters written as bytes. -/
def enc (segment : Text) : Text :=
  segment.flatMap fun c =>
    if isKept c then [c]
    else (String.utf8EncodeChar c).flatMap fun b => ['%', hexDigit (b.toNat / 16), hexDigit (b.toNat % 16)]

def hexValue (c : Char) : Option ℕ :=
  if '0' ≤ c ∧ c ≤ '9' then some (c.toNat - 48)
  else if 'A' ≤ c ∧ c ≤ 'F' then some (c.toNat - 55)
  else if 'a' ≤ c ∧ c ≤ 'f' then some (c.toNat - 87)
  else none

def decodedBytes : Text → List UInt8
  | '%' :: a :: b :: rest =>
    match hexValue a, hexValue b with
    | some x, some y => UInt8.ofNat (16 * x + y) :: decodedBytes rest
    | _, _ => String.utf8EncodeChar '%' ++ decodedBytes (a :: b :: rest)
  | c :: rest => String.utf8EncodeChar c ++ decodedBytes rest
  | [] => []

def decodeSegment (segment : Text) : Option Text :=
  if '%' ∈ segment then (String.fromUTF8? ⟨(decodedBytes segment).toArray⟩).map String.toList
  else some segment

section Segments

variable {t : Text}

theorem enc_eq_self (h : ∀ c ∈ t, isKept c) : enc t = t := by
  induction t with
  | nil => rfl
  | cons c t ih =>
    have hrest := ih fun c hc => h c (List.mem_cons_of_mem _ hc)
    unfold enc at hrest ⊢
    rw [List.flatMap_cons, hrest, if_pos (h c List.mem_cons_self)]
    rfl

theorem decodeSegment_eq_self (h : ∀ c ∈ t, isKept c) : decodeSegment t = some t := by
  unfold decodeSegment
  rw [if_neg]
  intro hmem
  have hkept := h '%' hmem
  revert hkept
  decide

theorem isKept_of_isWritten {c : Char} (h : IsWritten c) : isKept c := by
  rcases h with rfl | h
  · decide
  · simp only [isPreChar, Bool.or_eq_true, beq_iff_eq] at h
    rcases h with h | rfl
    · simp [isKept, h]
    · decide

end Segments

def maxIdLength : ℕ := 100

def isWord (c : Char) : Bool := c.isAlphanum || c == '_'

def isSep (c : Char) : Bool := c == '.' || c == '-'

/-- Words with single separators between them, after a start or a separator. -/
def scanId : Bool → Bool → Text → Bool
  | _, prevSep, [] => !prevSep
  | first, prevSep, c :: rest =>
    if isWord c then scanId false false rest
    else if isSep c then if first || prevSep then false else scanId false true rest
    else false

/-- Validate a package id against NuGet's rule. -/
def validatePackageId (id : Text) : Except String Unit :=
  let shown := reprStr (String.ofList id)
  if id.isEmpty then .error "package id is empty"
  else if maxIdLength < Text.byteLen id then
    .error s!"package id exceeds {maxIdLength} characters"
  else if !scanId true false id then .error s!"invalid package id: {shown}"
  else if isWindowsDeviceName id then
    let device := reprStr (String.ofList (id.takeWhile (· != '.')))
    .error (s!"invalid package id: {shown} starts with {device}, a Windows device name, " ++
      "which cannot be stored")
  else .ok ()

section Ids

variable {c : Char} {id : Text}

theorem isAlphanum_toLower (c : Char) : c.toLower.isAlphanum = c.isAlphanum := by
  rw [Bool.eq_iff_iff, Text.isAlphanum_iff, Text.isAlphanum_iff]
  rcases Text.toLower_cases c with ⟨h₁, h₂, h₃⟩ | ⟨-, heq⟩
  · omega
  · rw [heq]

theorem toLower_eq_iff {d : Char} (hd : d.isAlphanum = false) : c.toLower = d ↔ c = d := by
  rcases Text.toLower_cases c with ⟨h₁, h₂, h₃⟩ | ⟨-, heq⟩
  · have hc : c.isAlphanum := Text.isAlphanum_iff.mpr (by omega)
    have hlower : c.toLower.isAlphanum := (isAlphanum_toLower c).trans hc
    constructor
    · intro h
      rw [h, hd] at hlower
      cases hlower
    · intro h
      rw [h, hd] at hc
      cases hc
  · rw [heq]

theorem isWord_toLower (c : Char) : isWord c.toLower = isWord c := by
  have hline : c.toLower = '_' ↔ c = '_' := toLower_eq_iff (by decide)
  simp [isWord, isAlphanum_toLower, beq_eq_decide, hline]

theorem isSep_toLower (c : Char) : isSep c.toLower = isSep c := by
  have hdot : c.toLower = '.' ↔ c = '.' := toLower_eq_iff (by decide)
  have hdash : c.toLower = '-' ↔ c = '-' := toLower_eq_iff (by decide)
  simp [isSep, beq_eq_decide, hdot, hdash]

theorem scanId_lower (first prevSep : Bool) (id : Text) :
    scanId first prevSep (Text.lower id) = scanId first prevSep id := by
  induction id generalizing first prevSep with
  | nil => rfl
  | cons c id ih =>
    have hcons : Text.lower (c :: id) = c.toLower :: Text.lower id := rfl
    rw [hcons, scanId, scanId, isWord_toLower, isSep_toLower, ih, ih]

theorem isWhitespace_toLower (c : Char) : isWhitespace c.toLower = isWhitespace c := by
  rcases Text.toLower_cases c with ⟨h₁, h₂, h₃⟩ | ⟨-, heq⟩
  · simp only [isWhitespace, decide_eq_decide]
    omega
  · rw [heq]

theorem isWindowsDeviceName_lower (id : Text) :
    isWindowsDeviceName (Text.lower id) = isWindowsDeviceName id := by
  have hdot : (fun c : Char => c != '.') ∘ Char.toLower = fun c => c != '.' := by
    funext c
    have hc : c.toLower = '.' ↔ c = '.' := toLower_eq_iff (by decide)
    simp [bne, beq_eq_decide, hc]
  have hwhite : isWhitespace ∘ Char.toLower = isWhitespace := funext isWhitespace_toLower
  have hupper : Char.toUpper ∘ Char.toLower = Char.toUpper := funext Text.toUpper_toLower
  have hstem : upper (trimEndMatches isWhitespace ((Text.lower id).takeWhile (· != '.'))) =
      upper (trimEndMatches isWhitespace (id.takeWhile (· != '.'))) := by
    rw [Text.lower, List.takeWhile_map, hdot]
    unfold trimEndMatches upper
    rw [← List.map_reverse, List.dropWhile_map, hwhite, ← List.map_reverse, List.map_map, hupper]
  unfold isWindowsDeviceName
  rw [hstem]

theorem validatePackageId_lower (id : Text) :
    validatePackageId (Text.lower id) = .ok () ↔ validatePackageId id = .ok () := by
  have hempty : (Text.lower id).isEmpty = id.isEmpty := List.isEmpty_map
  simp only [validatePackageId, hempty, Text.byteLen_lower, scanId_lower,
    isWindowsDeviceName_lower]
  split_ifs <;> simp

theorem isKept_of_scanId {first prevSep : Bool} (h : scanId first prevSep id) :
    ∀ c ∈ id, isKept c := by
  induction id generalizing first prevSep with
  | nil => simp
  | cons c id ih =>
    rw [scanId] at h
    intro d hd
    rcases List.mem_cons.mp hd with rfl | hd
    · by_cases hword : isWord d
      · rcases Bool.or_eq_true_iff.mp hword with halpha | hline
        · simp [isKept, halpha]
        · simp [isKept, beq_iff_eq.mp hline]
      · by_cases hsep : isSep d
        · rcases Bool.or_eq_true_iff.mp hsep with hdot | hdash
          · simp [isKept, beq_iff_eq.mp hdot]
          · simp [isKept, beq_iff_eq.mp hdash]
        · simp [hword, hsep] at h
    · split_ifs at h
      · exact ih h d hd
      · exact ih h d hd

theorem isKept_of_validatePackageId (h : validatePackageId id = .ok ()) : ∀ c ∈ id, isKept c := by
  unfold validatePackageId at h
  split_ifs at h with hempty hlong hscan
  exact isKept_of_scanId (by simpa using hscan)

end Ids

def parseVersion (raw : Text) : Except VersionParseError Versions.NuGetVersion :=
  match Versions.NuGetVersion.parse raw with
  | .ok version => .ok version
  | .error e =>
    let start := (raw.dropWhile isWhitespace).head?
    if start = some 'v' ∨ start = some 'V' then .error e
    else Versions.NuGetVersion.parseStored raw

namespace NormalizedVersion

variable {v : Versions.NuGetVersion}

theorem isStored_canonical (h : v.IsStored) : v.canonical.IsStored where
  components := h.components
  pre id hid := by
    obtain ⟨id', hid', rfl⟩ := List.mem_map.mp hid
    exact (h.pre id' hid').lower

theorem isWritten (h : v.IsStored) {c : Char} (hc : c ∈ v.normalized) : IsWritten c := by
  rw [← Versions.NuGetVersion.toFullString_canonical] at hc
  unfold Versions.NuGetVersion.toFullString at hc
  have hmetadata : v.canonical.metadata = none := rfl
  rw [hmetadata, List.append_nil] at hc
  exact Versions.NuGetVersion.isWritten_labelled (isStored_canonical h).pre hc

theorem lower_normalized (v : Versions.NuGetVersion) : Text.lower v.normalized = v.normalized := by
  have hcore : Text.lower v.coreString = v.coreString := by
    have hsame : ∀ c ∈ v.coreString, c.toLower = id c := by
      intro c hc
      rcases Versions.NuGetVersion.mem_coreString hc with rfl | hdigit
      · decide
      · exact Text.toLower_of_isDigit hdigit
    rw [Text.lower, List.map_congr_left hsame, List.map_id]
  unfold Versions.NuGetVersion.normalized
  rw [Text.lower_append, hcore]
  split
  · rfl
  · have hdash : ∀ t, Text.lower ('-' :: t) = '-' :: Text.lower t := fun _ => rfl
    rw [hdash, Text.lower_lower]

/-- The normalized form of a stored version is read as a version equal to it. -/
theorem parseVersion_eq (h : v.IsStored) :
    parseVersion v.normalized = .ok { v.canonical with original := v.normalized } := by
  have hcanonical := isStored_canonical h
  have hstored := Versions.NuGetVersion.parseStored_toFullString hcanonical rfl
  rw [Versions.NuGetVersion.toFullString_canonical] at hstored
  unfold parseVersion
  split
  next version hparse =>
    rw [← hstored, Versions.NuGetVersion.parseStored, hparse]
  next e _ =>
    have hdrop : v.normalized.dropWhile isWhitespace = v.normalized :=
      Text.dropWhile_eq_self fun c hc => (isWritten h hc).not_whitespace
    have hhead : ∀ c, v.normalized.head? = some c → c = '.' ∨ c.isDigit := by
      intro c hc
      rw [← Versions.NuGetVersion.toFullString_canonical] at hc
      exact Versions.NuGetVersion.head?_toFullString hc
    rw [hdrop, if_neg, hstored]
    rintro (hv | hv)
    · simpa using hhead _ hv
    · simpa using hhead _ hv

theorem cmp_eq {w : Versions.NuGetVersion} (hv : v.IsStored) (hw : w.IsStored)
    (h : v.normalized = w.normalized) : v.cmp w = .eq := by
  have hparse := parseVersion_eq hv
  rw [h, parseVersion_eq hw] at hparse
  have hv' := Versions.NuGetVersion.cmp_canonical v
  have hw' := Versions.NuGetVersion.cmp_canonical w
  have hsame : w.canonical.cmp v = .eq := by
    have hread : { w.canonical with original := w.normalized }.cmp v = .eq := by
      rw [Except.ok.inj hparse]
      exact hv'
    exact hread
  exact Std.TransCmp.eq_trans (Std.OrientedCmp.eq_symm hsame) hw'

end NormalizedVersion

end YaNuget.Listings
