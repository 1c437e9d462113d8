import YaNuget.Data.CaseMapping
import YaNuget.Operations.LockRegistry
import YaNuget.Operations.SymbolPushes

/-!
# Names of symbol files

A symbol file is named by its SSQP key and its file name. The push, the row, the
stored path and the lock fold the case of the two on their own: the row by the
rules of Unicode, the others by those of ASCII.
-/
namespace YaNuget.SymbolNames

open Internalize (isWindowsDeviceName)

/-- A key and a file name, as somebody spells them. -/
structure Name where
  key : Text
  filename : Text
  deriving DecidableEq, Repr

/-- The first three components of a GUID are stored little-endian. -/
def guidOrder : List (Fin 16) := [3, 2, 1, 0, 5, 4, 7, 6, 8, 9, 10, 11, 12, 13, 14, 15]

def guidToHex (g : Fin 16 → UInt8) : Text :=
  guidOrder.flatMap fun i =>
    [Listings.hexDigit ((g i).toNat / 16), Listings.hexDigit ((g i).toNat % 16)]

/-- The GUID as upper-case hex, then the Portable PDB age. -/
def ssqpKey (guid : Fin 16 → UInt8) : Text := guidToHex guid ++ List.replicate 8 'F'

/-- The final path segment, lower-cased. -/
def fileName (entry : Text) : Text :=
  Text.lower (entry.reverse.takeWhile fun c => !(c == '/' || c == '\\')).reverse

/-- A PDB matched to an assembly of the package: its id, its entry and its bytes. -/
structure Pdb where
  guid : Fin 16 → UInt8
  entry : Text
  bytes : Content

def Pdb.name (v : Pdb) : Name := ⟨ssqpKey v.guid, fileName v.entry⟩

/-- What cannot be one segment of a path, on Windows either. -/
def isInvalidSegment (segment : Text) : Bool :=
  segment.isEmpty || segment = ['.'] || segment = ['.', '.'] ||
    (segment.any fun c => c ∈ ['/', '\\', ':'] || isControl c) ||
    segment.getLast?.any (· ∈ ['.', ' ']) || isWindowsDeviceName segment

def safeSegment (segment : Text) : Except Error Text :=
  if isInvalidSegment segment then
    .error (.badRequest ("invalid storage path segment: " ++ reprStr (String.ofList segment)))
  else .ok segment

/-- The path of a file, under the root of the symbols. -/
def symbolPath (n : Name) : Except Error Name := do
  let key ← safeSegment n.key
  let filename ← safeSegment n.filename
  pure ⟨Text.lower key, Text.lower filename⟩

def row (table : CaseTable) (n : Name) : Name :=
  ⟨table.toUppercase n.key, table.toLowercase n.filename⟩

def lockKey (n : Name) : Text := (Locks.Subject.symbol n.key n.filename).key

/-- The rules of Unicode fold the name as those of ASCII do. -/
def Folds (table : CaseTable) (n : Name) : Prop :=
  table.toUppercase n.key = Internalize.upper n.key ∧
    table.toLowercase n.filename = Text.lower n.filename

instance (table : CaseTable) (n : Name) : Decidable (Folds table n) :=
  inferInstanceAs (Decidable (_ ∧ _))

def fold (n : Name) : Name := ⟨Internalize.upper n.key, Text.lower n.filename⟩

/-- The row of the two is one exactly when their path is, and when their lock is. -/
def NamedAlike (table : CaseTable) (p q : Name) : Prop :=
  (row table p = row table q ↔ symbolPath p = symbolPath q) ∧
    (row table p = row table q ↔ lockKey p = lockKey q)

section Pdbs

end Pdbs

section Segments

variable {a b : Text}

theorem isControl_toLower (c : Char) : isControl c.toLower = isControl c := by
  rcases Text.toLower_cases c with ⟨h₁, h₂, h₃⟩ | ⟨-, heq⟩
  · simp only [isControl, decide_eq_decide]
    omega
  · rw [heq]

theorem isInvalidSegment_lower (a : Text) :
    isInvalidSegment (Text.lower a) = isInvalidSegment a := by
  have hdot (c : Char) : c.toLower = '.' ↔ c = '.' := Listings.toLower_eq_iff (by decide)
  have hspace (c : Char) : c.toLower = ' ' ↔ c = ' ' := Listings.toLower_eq_iff (by decide)
  have hslash (c : Char) : c.toLower = '/' ↔ c = '/' := Listings.toLower_eq_iff (by decide)
  have hback (c : Char) : c.toLower = '\\' ↔ c = '\\' := Listings.toLower_eq_iff (by decide)
  have hcolon (c : Char) : c.toLower = ':' ↔ c = ':' := Listings.toLower_eq_iff (by decide)
  have hone : Text.lower a = ['.'] ↔ a = ['.'] := by
    simp [Text.lower, List.map_eq_cons_iff, hdot]
  have htwo : Text.lower a = ['.', '.'] ↔ a = ['.', '.'] := by
    simp [Text.lower, List.map_eq_cons_iff, hdot]
  have hany : ((Text.lower a).any fun c => c ∈ ['/', '\\', ':'] || isControl c) =
      a.any fun c => c ∈ ['/', '\\', ':'] || isControl c := by
    simp [Text.lower, List.any_map, Function.comp_def, isControl_toLower, hslash, hback, hcolon]
  have hlast : (Text.lower a).getLast?.any (· ∈ ['.', ' ']) =
      a.getLast?.any (· ∈ ['.', ' ']) := by
    simp [Text.lower, Option.any_map, hdot, hspace]
  have hempty : (Text.lower a).isEmpty = a.isEmpty := List.isEmpty_map
  unfold isInvalidSegment
  rw [hempty, hany, hlast, Listings.isWindowsDeviceName_lower]
  simp only [hone, htwo]

theorem lower_upper (a : Text) : Text.lower (Internalize.upper a) = Text.lower a := by
  unfold Text.lower Internalize.upper
  rw [List.map_map]
  exact List.map_congr_left fun c _ => Text.toLower_toUpper c

theorem upper_lower (a : Text) : Internalize.upper (Text.lower a) = Internalize.upper a := by
  unfold Text.lower Internalize.upper
  rw [List.map_map]
  exact List.map_congr_left fun c _ => Text.toUpper_toLower c

theorem isInvalidSegment_upper (a : Text) :
    isInvalidSegment (Internalize.upper a) = isInvalidSegment a := by
  rw [← isInvalidSegment_lower, lower_upper, isInvalidSegment_lower]

theorem slash_of_valid (h : isInvalidSegment a = false) : '/' ∉ a := by
  intro hmem
  simp only [isInvalidSegment, Bool.or_eq_false_iff, List.any_eq_false] at h
  exact h.1.1.2 '/' hmem (by simp)

end Segments

section Names

variable {table : CaseTable} {n p q x : Name}

theorem symbolPath_eq_ok : symbolPath n = .ok x ↔ isInvalidSegment n.key = false ∧
    isInvalidSegment n.filename = false ∧ x = ⟨Text.lower n.key, Text.lower n.filename⟩ := by
  unfold symbolPath safeSegment
  cases isInvalidSegment n.key with
  | true => simp [bind, Except.bind]
  | false =>
    cases isInvalidSegment n.filename with
    | true => simp [bind, Except.bind]
    | false => simp [bind, Except.bind, pure, Except.pure, eq_comm]

theorem symbolPath_fold : symbolPath (fold n) = .ok x ↔ symbolPath n = .ok x := by
  simp only [symbolPath_eq_ok, fold, isInvalidSegment_upper, isInvalidSegment_lower, lower_upper,
    Text.lower_lower]

theorem symbolPath_congr (heq : fold p = fold q) : symbolPath p = .ok x ↔ symbolPath q = .ok x := by
  rw [← symbolPath_fold, heq, symbolPath_fold]

theorem fold_eq_of_path (hp : symbolPath p = .ok x) (hq : symbolPath q = .ok x) :
    fold p = fold q := by
  obtain ⟨-, -, rfl⟩ := symbolPath_eq_ok.mp hp
  obtain ⟨-, -, heq⟩ := symbolPath_eq_ok.mp hq
  obtain ⟨hkey, hfile⟩ := Name.mk.inj heq
  unfold fold
  rw [← upper_lower p.key, hkey, hfile, upper_lower]

theorem fold_eq_of_lock (hp : symbolPath p = .ok x) (h : lockKey p = lockKey q) :
    fold p = fold q := by
  obtain ⟨hkey, hfile, -⟩ := symbolPath_eq_ok.mp hp
  have hslash : '/' ∉ Internalize.upper p.key :=
    slash_of_valid ((isInvalidSegment_upper _).trans hkey)
  have hlower : '/' ∉ Text.lower p.filename :=
    slash_of_valid ((isInvalidSegment_lower _).trans hfile)
  have happend := List.append_cancel_left h
  have hcount := congrArg (List.count '/') happend
  simp only [List.count_append, List.count_cons_self, List.count_eq_zero_of_not_mem hslash,
    List.count_eq_zero_of_not_mem hlower] at hcount
  have hslash' : '/' ∉ Internalize.upper q.key := List.count_eq_zero.mp (by omega)
  obtain ⟨hkey, hfile⟩ := Locks.Subject.split_eq hslash hslash' happend
  unfold fold
  rw [hkey, hfile]

theorem folds_iff : Folds table n ↔ row table n = fold n := by
  simp [Folds, row, fold]

theorem folds_iff_path (hp : symbolPath p = .ok x) (hfolds : Folds table p)
    (hrow : row table p = row table q) : Folds table q ↔ symbolPath q = .ok x := by
  rw [folds_iff] at hfolds ⊢
  constructor
  · intro h
    have hfold : fold p = fold q := by rw [← hfolds, hrow, h]
    exact (symbolPath_congr hfold).mp hp
  · intro h
    rw [← hrow, hfolds, fold_eq_of_path hp h]

variable (ht : table.Lawful)
include ht

theorem row_congr (heq : fold p = fold q) : row table p = row table q := by
  obtain ⟨hkey, hfile⟩ := Name.mk.inj heq
  unfold row
  rw [ht.toUppercase_congr hkey, ht.toLowercase_congr hfile]

theorem fold_row (n : Name) : fold (row table n) = row table n := by
  have hkey : Internalize.upper (table.toUppercase n.key) = table.toUppercase n.key :=
    ht.toUpper_toUppercase n.key
  unfold fold row
  rw [hkey, ht.lower_toLowercase]

/-- The row read back addresses the file exactly when the two rules fold the name alike. -/
theorem folds_iff_path_row (hn : symbolPath n = .ok x) :
    Folds table n ↔ symbolPath (row table n) = .ok x := by
  rw [folds_iff]
  constructor
  · intro h
    rw [h]
    exact symbolPath_fold.mpr hn
  · intro h
    rw [← fold_row ht, fold_eq_of_path h hn]

theorem namedAlike_iff (hp : symbolPath p = .ok x) (hfolds : Folds table p) :
    NamedAlike table p q ↔ (row table p = row table q → Folds table q) := by
  unfold NamedAlike
  rw [hp]
  constructor
  · rintro ⟨hpath, -⟩ hrow
    exact (folds_iff_path hp hfolds hrow).mpr (hpath.mp hrow).symm
  · intro h
    constructor
    · constructor
      · intro hrow
        exact ((folds_iff_path hp hfolds hrow).mp (h hrow)).symm
      · intro hq
        exact row_congr ht (fold_eq_of_path hp hq.symm)
    · constructor
      · intro hrow
        have hfold : fold p = fold q := by
          rw [← folds_iff.mp hfolds, hrow, folds_iff.mp (h hrow)]
        obtain ⟨hkey, hfile⟩ := Name.mk.inj hfold
        simp only [lockKey, Locks.Subject.key, hkey, hfile]
      · intro hlock
        exact row_congr ht (fold_eq_of_lock hp hlock)

end Names

end YaNuget.SymbolNames
