import YaNuget.Data.Outcomes
import YaNuget.Operations.SymbolSpellings

/-!
# Every layer names a symbol file alike

As long as the rules of Unicode and of ASCII fold every name in use alike, the
rows and the files correspond, name by name: what a row says leads to its file,
a purge leaves none of a version's files, and whoever finds a row finds its
file. A name that they fold differently breaks this at once.
-/
namespace YaNuget.SymbolNames

open Outcomes

def pushedNames (history : List Command) : List Name :=
  history.flatMap fun
    | .push _ pdbs _ => pdbs.map Pdb.name
    | _ => []

def askedNames (history : List Command) : List Name :=
  history.flatMap fun
    | .request n => [n]
    | _ => []

def Storable (history : List Command) (n : Name) : Prop :=
  n ∈ pushedNames history ∧ ∃ x, symbolPath n = .ok x

def InUse (history : List Command) (n : Name) : Prop :=
  Storable history n ∨ n ∈ askedNames history

section Spec

variable (table : CaseTable) (sha256 : Content → Digest) (history : List Command)

structure AllAlike : Prop where
  named : ∀ p q, Storable history p → InUse history q → NamedAlike table p q
  readBack : ∀ p x, p ∈ pushedNames history → symbolPath p = .ok x →
    symbolPath (row table p) = .ok x
  purged : ∀ before, before <+: history → ∀ k,
    ∃ s, (Store.after table sha256 before).purgeSymbols k = (s, .ok ()) ∧
      ∀ x file, s.files x = some file → file.owner ≠ k
  served : ∀ before, before <+: history → ∀ q, InUse history q → ∀ owner,
    (Store.after table sha256 before).findSymbol table q = some owner →
      ∃ file, (Store.after table sha256 before).getSymbol q = .ok file ∧ file.owner = owner

/-- The two rules fold every name that is stored alike, and every spelling that finds the row of
one. -/
def FoldedAlike : Prop :=
  (∀ p, Storable history p → Folds table p) ∧
    ∀ p q, Storable history p → q ∈ askedNames history → row table q = row table p →
      Folds table q

end Spec

namespace Store

variable {table : CaseTable} {sha256 : Content → Digest} {s s' : Store} {k : VersionKey}
  {n : Name} {claimed : List Name}

/-- Rows and files correspond; every row is that of a pushed name. -/
structure Kept (table : CaseTable) (stored : Name → Prop) (s : Store) : Prop where
  pushed : ∀ r ∈ s.rows, ∃ p, stored p ∧ row table p = r.1
  file : ∀ r ∈ s.rows, ∃ x file, symbolPath r.1 = .ok x ∧ s.files x = some file ∧
    file.owner = r.2
  row : ∀ x file, s.files x = some file → ∃ r ∈ s.rows, symbolPath r.1 = .ok x

section Operations

theorem findSymbol_eq_none : s.findSymbol table n = none ↔ ∀ r ∈ s.rows, r.1 ≠ row table n := by
  simp [findSymbol]

theorem mem_of_findSymbol {owner : VersionKey} (h : s.findSymbol table n = some owner) :
    (SymbolNames.row table n, owner) ∈ s.rows := by
  obtain ⟨r, hr, rfl⟩ := Option.map_eq_some_iff.mp h
  have hkey : r.1 = SymbolNames.row table n := by simpa using List.find?_some hr
  rw [← hkey]
  exact List.mem_of_find?_eq_some hr

theorem addSymbol_eq_some : s.addSymbol table k n = some s' ↔
    (∀ r ∈ s.rows, r.1 ≠ SymbolNames.row table n) ∧
      s' = { s with rows := s.rows ++ [(SymbolNames.row table n, k)] } := by
  unfold addSymbol
  rw [← findSymbol_eq_none]
  cases s.findSymbol table n with
  | none => simp [eq_comm]
  | some owner => simp

theorem rows_releaseOne : (s.releaseOne table n).rows =
    s.rows.filter fun r => r.1 ≠ SymbolNames.row table n := by
  unfold releaseOne deleteFile
  cases symbolPath n with
  | error e => rfl
  | ok x => rfl

theorem files_releaseOne (x : Name) : (s.releaseOne table n).files x =
    if symbolPath n = .ok x then none else s.files x := by
  unfold releaseOne deleteFile
  cases hn : symbolPath n with
  | error e => simp [bind, Except.bind, deleteSymbol]
  | ok y =>
    by_cases hxy : x = y
    · simp [bind, Except.bind, pure, Except.pure, hxy]
    · simp [bind, Except.bind, pure, Except.pure, hxy, Ne.symm hxy, deleteSymbol]

theorem rows_release : (s.release table claimed).rows =
    s.rows.filter fun r => r.1 ∉ claimed.map (SymbolNames.row table) := by
  induction claimed generalizing s with
  | nil => simp [release]
  | cons n claimed ih =>
    have hcons : s.release table (n :: claimed) = (s.releaseOne table n).release table claimed := rfl
    rw [hcons, ih, rows_releaseOne, List.filter_filter]
    apply List.filter_congr
    intro r _
    simp [Bool.and_comm]

open Classical in
theorem files_release (x : Name) : (s.release table claimed).files x =
    if ∃ n ∈ claimed, symbolPath n = .ok x then none else s.files x := by
  induction claimed generalizing s with
  | nil => simp [release]
  | cons n claimed ih =>
    have hcons : s.release table (n :: claimed) = (s.releaseOne table n).release table claimed := rfl
    rw [hcons, ih, files_releaseOne]
    by_cases hn : symbolPath n = .ok x
    · simp [hn]
    · simp [hn]

/-- Files are deleted one after the other, if each has a path. -/
theorem deleteEach_ok {names : List Name} (h : ∀ n ∈ names, ∃ x, symbolPath n = .ok x) :
    ∃ s', s.deleteEach names = (s', .ok ()) ∧ s'.rows = s.rows ∧
      (∀ x, (∃ n ∈ names, symbolPath n = .ok x) → s'.files x = none) ∧
      ∀ x, (∀ n ∈ names, symbolPath n ≠ .ok x) → s'.files x = s.files x := by
  induction names generalizing s with
  | nil => exact ⟨s, rfl, rfl, by simp, by simp⟩
  | cons n names ih =>
    obtain ⟨y, hy⟩ := h n List.mem_cons_self
    have hdelete : s.deleteFile n = .ok { s with files := Function.update s.files y none } := by
      unfold deleteFile
      rw [hy]
      rfl
    obtain ⟨s', hs', hrows, hgone, hother⟩ :=
      ih (s := { s with files := Function.update s.files y none })
        fun n hn => h n (List.mem_cons_of_mem _ hn)
    refine ⟨s', ?_, hrows, ?_, ?_⟩
    · rw [deleteEach, hdelete]
      exact hs'
    · intro x hx
      by_cases hlater : ∃ n ∈ names, symbolPath n = .ok x
      · exact hgone x hlater
      · rw [hother x fun n hn heq => hlater ⟨n, hn, heq⟩]
        obtain ⟨m, hm, hmx⟩ := hx
        rcases List.mem_cons.mp hm with rfl | hm
        · have hxy : x = y := Except.ok.inj (hmx.symm.trans hy)
          simp [hxy]
        · exact (hlater ⟨m, hm, hmx⟩).elim
    · intro x hx
      have hne : x ≠ y := by
        rintro rfl
        exact hx n List.mem_cons_self hy
      rw [hother x fun n hn => hx n (List.mem_cons_of_mem _ hn)]
      exact Function.update_of_ne hne _ _

theorem planOf_of_mem {pdbs : List Pdb} {plans : List (Pdb × Plan)}
    (h : (pdbs.mapM fun v => (s.planOf table sha256 k v).map fun plan => (v, plan)) = .ok plans) :
    ∀ e ∈ plans, e.1 ∈ pdbs ∧ s.planOf table sha256 k e.1 = .ok e.2 := by
  induction pdbs generalizing plans with
  | nil =>
    cases h
    simp
  | cons v pdbs ih =>
    rw [List.mapM_cons, bind_eq_ok] at h
    obtain ⟨first, hfirst, hrest⟩ := h
    obtain ⟨rest, hplans, hpure⟩ := bind_eq_ok.mp hrest
    cases hpure
    intro e he
    rcases List.mem_cons.mp he with rfl | he
    · cases hplan : s.planOf table sha256 k v with
      | error e =>
        rw [hplan] at hfirst
        cases hfirst
      | ok plan =>
        rw [hplan] at hfirst
        cases hfirst
        exact ⟨List.mem_cons_self, hplan⟩
    · obtain ⟨hmem, hplan⟩ := ih hplans e he
      exact ⟨List.mem_cons_of_mem _ hmem, hplan⟩

section CarryOut

variable {disk : Disk} {v : Pdb} {rest : List (Pdb × Plan)} {s₁ s₂ : Store} {e : Error}

theorem carryOut_taken (h : s.addSymbol table k v.name = none) :
    carryOut table k disk s ((v, .claim) :: rest) claimed =
      (s.release table claimed, .error (.conflict ("symbol " ++ String.ofList v.name.filename ++
        " (" ++ String.ofList v.name.key ++ ") was claimed concurrently"))) := by
  conv_lhs => whnf
  rw [h]

theorem carryOut_failed (h : s.addSymbol table k v.name = some s₁)
    (hstore : s₁.storeSymbolFile k disk v = .error e) :
    carryOut table k disk s ((v, .claim) :: rest) claimed =
      (s₁.release table (claimed ++ [v.name]), .error e) := by
  conv_lhs => whnf
  rw [h]
  simp only [hstore]

theorem carryOut_claimed (h : s.addSymbol table k v.name = some s₁)
    (hstore : s₁.storeSymbolFile k disk v = .ok s₂) :
    carryOut table k disk s ((v, .claim) :: rest) claimed =
      carryOut table k disk s₂ rest (claimed ++ [v.name]) := by
  conv_lhs => whnf
  rw [h]
  simp only [hstore]

end CarryOut

end Operations

section Served

variable {stored : Name → Prop}

/-- A purge succeeds, and leaves no file of the version. -/
theorem Kept.purge (h : s.Kept table stored) (k : VersionKey) :
    ∃ s', s.purgeSymbols k = (s', .ok ()) ∧ s'.Kept table stored ∧
      ∀ x file, s'.files x = some file → file.owner ≠ k := by
  have hpaths : ∀ n ∈ s.findSymbols k, ∃ x, symbolPath n = .ok x := by
    intro n hn
    obtain ⟨r, hr, rfl⟩ := List.mem_map.mp hn
    obtain ⟨x, -, hx, -⟩ := h.file r (List.mem_of_mem_filter hr)
    exact ⟨x, hx⟩
  obtain ⟨s₁, hs₁, hrows, hgone, hother⟩ := deleteEach_ok (s := s) hpaths
  have hpurge : s.purgeSymbols k = (s₁.deleteSymbols k, .ok ()) := by
    simp only [purgeSymbols, hs₁]
  have hsame : ∀ r ∈ s.rows, ∀ x, symbolPath r.1 = .ok x →
      ((∃ n ∈ s.findSymbols k, symbolPath n = .ok x) ↔ r.2 = k) := by
    intro r hr x hx
    constructor
    · rintro ⟨n, hn, hnx⟩
      obtain ⟨r', hr', rfl⟩ := List.mem_map.mp hn
      obtain ⟨hr', howner⟩ := List.mem_filter.mp hr'
      obtain ⟨y, file, hy, hfile, hr₂⟩ := h.file r hr
      obtain ⟨y', file', hy', hfile', hr₂'⟩ := h.file r' hr'
      have hyy : y = y' := by
        rw [← Except.ok.inj (hx.symm.trans hy), Except.ok.inj (hnx.symm.trans hy')]
      subst hyy
      rw [← hr₂, Option.some.inj (hfile.symm.trans hfile'), hr₂']
      exact of_decide_eq_true howner
    · intro howner
      exact ⟨r.1, List.mem_map_of_mem (List.mem_filter.mpr ⟨hr, decide_eq_true howner⟩), hx⟩
  have hleft : ∀ x file, s₁.files x = some file →
      s.files x = some file ∧ ∃ r ∈ s.rows, symbolPath r.1 = .ok x ∧ r.2 ≠ k := by
    intro x file hfile
    have hstays : ∀ n ∈ s.findSymbols k, symbolPath n ≠ .ok x := by
      intro n hn hnx
      rw [hgone x ⟨n, hn, hnx⟩] at hfile
      cases hfile
    rw [hother x hstays] at hfile
    obtain ⟨r, hr, hx⟩ := h.row x file hfile
    refine ⟨hfile, r, hr, hx, ?_⟩
    intro howner
    obtain ⟨n, hn, hnx⟩ := (hsame r hr x hx).mpr howner
    exact hstays n hn hnx
  refine ⟨s₁.deleteSymbols k, hpurge, ?_, ?_⟩
  · constructor
    · intro r hr
      exact h.pushed r (hrows ▸ List.mem_of_mem_filter hr)
    · intro r hr
      obtain ⟨hr, hk⟩ := List.mem_filter.mp hr
      obtain ⟨x, file, hx, hfile, howner⟩ := h.file r (hrows ▸ hr)
      refine ⟨x, file, hx, ?_, howner⟩
      have hstays : ∀ n ∈ s.findSymbols k, symbolPath n ≠ .ok x := fun n hn hnx =>
        of_decide_eq_true hk ((hsame r (hrows ▸ hr) x hx).mp ⟨n, hn, hnx⟩)
      exact (hother x hstays).trans hfile
    · intro x file hfile
      obtain ⟨-, r, hr, hx, hk⟩ := hleft x file hfile
      exact ⟨r, List.mem_filter.mpr ⟨hrows ▸ hr, decide_eq_true hk⟩, hx⟩
  · intro x file hfile
    obtain ⟨hfile, r, hr, hx, hk⟩ := hleft x file hfile
    obtain ⟨y, file', hy, hfile', howner⟩ := h.file r hr
    have hxy : x = y := Except.ok.inj (hx.symm.trans hy)
    rw [← hxy, hfile, Option.some.injEq] at hfile'
    rw [hfile', howner]
    exact hk

theorem Kept.served (h : s.Kept table stored) (hn : Folds table n) {owner : VersionKey}
    (hfind : s.findSymbol table n = some owner) :
    ∃ file, s.getSymbol n = .ok file ∧ file.owner = owner := by
  obtain ⟨x, file, hx, hfile, howner⟩ := h.file _ (mem_of_findSymbol hfind)
  rw [folds_iff.mp hn, symbolPath_fold] at hx
  refine ⟨file, ?_, howner⟩
  unfold getSymbol
  rw [hx, ok_bind, hfile]
  rfl

end Served

section Keeps

variable {stored : Name → Prop} {disk : Disk} {v : Pdb} {x : Name} (ht : table.Lawful)
include ht

theorem Kept.fold_eq (h : s.Kept table stored) {r : Name × VersionKey} (hr : r ∈ s.rows) :
    fold r.1 = r.1 := by
  obtain ⟨p, -, hrow⟩ := h.pushed r hr
  rw [← hrow, fold_row ht]

theorem Kept.eq_of_path (h : s.Kept table stored) {r : Name × VersionKey} (hr : r ∈ s.rows)
    (hx : symbolPath r.1 = .ok x) (hn : symbolPath (SymbolNames.row table n) = .ok x) :
    r.1 = SymbolNames.row table n := by
  rw [← h.fold_eq ht hr, fold_eq_of_path hx hn, fold_row ht]

variable (hfolds : ∀ p, stored p → Folds table p)
include hfolds

omit ht in
theorem path_row (hn : stored n) :
    symbolPath (SymbolNames.row table n) = .ok x ↔ symbolPath n = .ok x := by
  rw [folds_iff.mp (hfolds n hn), symbolPath_fold]

/-- Claims that are undone take their files with them. -/
theorem Kept.release (h : s.Kept table stored) (hclaimed : ∀ n ∈ claimed, stored n) :
    (s.release table claimed).Kept table stored where
  pushed r hr := by
    rw [rows_release] at hr
    exact h.pushed r (List.mem_of_mem_filter hr)
  file r hr := by
    rw [rows_release] at hr
    obtain ⟨hr, hkept⟩ := List.mem_filter.mp hr
    obtain ⟨x, file, hx, hfile, howner⟩ := h.file r hr
    refine ⟨x, file, hx, ?_, howner⟩
    rw [files_release, if_neg, hfile]
    rintro ⟨n, hn, hpath⟩
    have hrow := h.eq_of_path ht hr hx ((path_row hfolds (hclaimed n hn)).mpr hpath)
    exact of_decide_eq_true hkept (hrow ▸ List.mem_map_of_mem hn)
  row x file hfile := by
    rw [files_release] at hfile
    split_ifs at hfile with hgone
    obtain ⟨r, hr, hx⟩ := h.row x file hfile
    refine ⟨r, ?_, hx⟩
    rw [rows_release, List.mem_filter, decide_eq_true_eq]
    refine ⟨hr, ?_⟩
    intro hmem
    obtain ⟨n, hn, hrow⟩ := List.mem_map.mp hmem
    exact hgone ⟨n, hn, (path_row hfolds (hclaimed n hn)).mp (hrow ▸ hx)⟩

omit hfolds in
/-- Undoing a claim whose file was not stored undoes the others. -/
theorem Kept.release_failed (h : s.Kept table stored)
    (hn : ∀ x, symbolPath n = .ok x → Folds table n) (hadd : s.addSymbol table k n = some s') :
    s'.release table (claimed ++ [n]) = s.release table claimed := by
  obtain ⟨hnew, rfl⟩ := addSymbol_eq_some.mp hadd
  apply Store.ext
  · rw [rows_release, rows_release, List.filter_append]
    have hlast : [(SymbolNames.row table n, k)].filter
        (fun r => r.1 ∉ (claimed ++ [n]).map (SymbolNames.row table)) = [] := by simp
    rw [hlast, List.append_nil]
    apply List.filter_congr
    intro r hr
    simp [hnew r hr]
  · funext x
    rw [files_release, files_release]
    by_cases hx : symbolPath n = .ok x
    · have hfree : s.files x = none := by
        cases hfile : s.files x with
        | none => rfl
        | some file =>
          obtain ⟨r, hr, hrx⟩ := h.row x file hfile
          have hrow : symbolPath (SymbolNames.row table n) = .ok x := by
            rw [folds_iff.mp (hn x hx), symbolPath_fold, hx]
          exact (hnew r hr (h.eq_of_path ht hr hrx hrow)).elim
      simp [hx, hfree]
    · simp [hx]

theorem Kept.claim (h : s.Kept table stored) (hv : stored v.name)
    (hadd : s.addSymbol table k v.name = some s') {s'' : Store}
    (hstore : s'.storeSymbolFile k disk v = .ok s'') : s''.Kept table stored := by
  obtain ⟨hnew, rfl⟩ := addSymbol_eq_some.mp hadd
  unfold storeSymbolFile at hstore
  cases hpath : symbolPath v.name with
  | error e => simp [hpath, bind, Except.bind] at hstore
  | ok x =>
    have hrow := (path_row hfolds hv).mpr hpath
    simp only [hpath, bind, Except.bind] at hstore
    split at hstore
    · cases hstore
    · cases hstore
      constructor
      · intro r hr
        rcases List.mem_append.mp hr with hr | hr
        · exact h.pushed r hr
        · rw [List.mem_singleton.mp hr]
          exact ⟨v.name, hv, rfl⟩
      · intro r hr
        rcases List.mem_append.mp hr with hr | hr
        · obtain ⟨y, file, hy, hfile, howner⟩ := h.file r hr
          have hne : y ≠ x := by
            intro hyx
            exact hnew r hr (h.eq_of_path ht hr (hyx ▸ hy) hrow)
          exact ⟨y, file, hy, (Function.update_of_ne hne _ _).trans hfile, howner⟩
        · rw [List.mem_singleton.mp hr]
          exact ⟨x, _, hrow, Function.update_self _ _ _, rfl⟩
      · intro y file hfile
        by_cases hyx : y = x
        · exact ⟨_, List.mem_append_right _ List.mem_cons_self, hyx ▸ hrow⟩
        · obtain ⟨r, hr, hy⟩ := h.row y file ((Function.update_of_ne hyx _ _).symm.trans hfile)
          exact ⟨r, List.mem_append_left _ hr, hy⟩

omit ht in
/-- A row has its file, so there is nothing to restore. -/
theorem Kept.not_restore (h : s.Kept table stored)
    (hv : ∀ x, symbolPath v.name = .ok x → stored v.name) :
    s.planOf table sha256 k v ≠ .ok .restore := by
  intro hplan
  unfold planOf at hplan
  cases hfind : s.findSymbol table v.name with
  | none =>
    rw [hfind] at hplan
    cases hplan
  | some owner =>
    cases hget : s.getSymbol v.name with
    | ok file =>
      simp only [hfind, hget] at hplan
      split at hplan
      · cases hplan
      · split at hplan <;> cases hplan
    | error e =>
      have hnone : e ≠ .packageNotFound := by
        rintro rfl
        unfold getSymbol at hget
        cases hpath : symbolPath v.name with
        | error e =>
          rw [hpath] at hget
          cases hget
          unfold symbolPath safeSegment at hpath
          split_ifs at hpath <;> cases hpath
        | ok x =>
          obtain ⟨y, file, hy, hfile, -⟩ := h.file _ (mem_of_findSymbol hfind)
          have hxy := (path_row hfolds (hv x hpath)).mp hy
          simp [hxy, hfile, bind, Except.bind, pure, Except.pure] at hget
      simp only [hfind, hget] at hplan
      split at hplan
      · cases hplan
      · cases e with
        | packageNotFound => exact hnone rfl
        | _ => cases hplan

/-- Carrying out a push keeps rows and files together, and claims stored names only. -/
theorem Kept.carryOut {plans : List (Pdb × Plan)} (h : s.Kept table stored)
    (hclaimed : ∀ n ∈ claimed, stored n)
    (hplans : ∀ e ∈ plans, e.2 ≠ .restore ∧ ∀ x, symbolPath e.1.name = .ok x → stored e.1.name) :
    (Store.carryOut table k disk s plans claimed).1.Kept table stored ∧
      ∀ all, (Store.carryOut table k disk s plans claimed).2 = .ok all → ∀ n ∈ all, stored n := by
  induction plans generalizing s claimed with
  | nil =>
    refine ⟨h, ?_⟩
    rintro all ⟨⟩
    exact hclaimed
  | cons e plans ih =>
    obtain ⟨v, plan⟩ := e
    obtain ⟨⟨hplan, hv⟩, hrest⟩ := List.forall_mem_cons.mp hplans
    cases plan with
    | unchanged => exact ih h hclaimed hrest
    | restore => exact (hplan rfl).elim
    | claim =>
      cases hadd : s.addSymbol table k v.name with
      | none =>
        rw [carryOut_taken hadd]
        exact ⟨h.release ht hfolds hclaimed, fun all hall => by cases hall⟩
      | some s₁ =>
        cases hstore : s₁.storeSymbolFile k disk v with
        | error e =>
          rw [carryOut_failed hadd hstore,
            h.release_failed ht (fun x hx => hfolds _ (hv x hx)) hadd]
          exact ⟨h.release ht hfolds hclaimed, fun all hall => by cases hall⟩
        | ok s₂ =>
          rw [carryOut_claimed hadd hstore]
          have hname : stored v.name := by
            unfold storeSymbolFile at hstore
            cases hpath : symbolPath v.name with
            | error e => simp [hpath, bind, Except.bind] at hstore
            | ok x => exact hv x hpath
          apply ih (h.claim ht hfolds hname hadd hstore) _ hrest
          intro n hn
          rcases List.mem_append.mp hn with hn | hn
          · exact hclaimed n hn
          · exact List.mem_singleton.mp hn ▸ hname

theorem Kept.push {pdbs : List Pdb} (h : s.Kept table stored)
    (hpdbs : ∀ v ∈ pdbs, ∀ x, symbolPath v.name = .ok x → stored v.name) :
    (s.push table sha256 k pdbs disk).1.Kept table stored := by
  unfold Store.push
  cases hplans : pdbs.mapM fun v => (s.planOf table sha256 k v).map fun plan => (v, plan) with
  | error e => exact h
  | ok plans =>
    have hmem := planOf_of_mem hplans
    have hplanned : ∀ e ∈ plans, e.2 ≠ .restore ∧
        ∀ x, symbolPath e.1.name = .ok x → stored e.1.name := fun e he =>
      ⟨fun hrestore => h.not_restore hfolds (hpdbs e.1 (hmem e he).1) (hrestore ▸ (hmem e he).2),
        hpdbs e.1 (hmem e he).1⟩
    have hclaimed : ∀ n ∈ ([] : List Name), stored n := by simp
    obtain ⟨hafter, hall⟩ := @Kept.carryOut _ _ k _ _ disk ht hfolds _ h hclaimed hplanned
    cases hout : Store.carryOut table k disk s plans [] with
    | mk after result =>
      rw [hout] at hafter hall
      simp only [hout]
      cases result with
      | error e => exact hafter
      | ok claimed =>
        cases disk.package with
        | none => exact hafter
        | some e => exact hafter.release ht hfolds (hall claimed rfl)

end Keeps

section Histories

variable {stored : Name → Prop} {history before : List Command}

/-- Rows and files stay together through a history of names that are folded alike. -/
theorem Kept.after (ht : table.Lawful) (hfolds : ∀ p, stored p → Folds table p)
    (h : s.Kept table stored)
    (hstored : ∀ p x, p ∈ pushedNames history → symbolPath p = .ok x → stored p) :
    (history.foldl (step table sha256) s).Kept table stored := by
  induction history generalizing s with
  | nil => exact h
  | cons c history ih =>
    rw [List.foldl_cons]
    apply ih
    · cases c with
      | push k pdbs disk =>
        apply h.push ht hfolds
        intro v hv x hx
        apply hstored v.name x _ hx
        exact List.mem_flatMap.mpr ⟨_, List.mem_cons_self, List.mem_map_of_mem hv⟩
      | request n => exact h
      | purge k =>
        obtain ⟨s', hpurge, hkept, -⟩ := h.purge k
        rw [step, hpurge]
        exact hkept
    · intro p x hp hx
      obtain ⟨c', hc', hmem⟩ := List.mem_flatMap.mp hp
      exact hstored p x (List.mem_flatMap.mpr ⟨c', List.mem_cons_of_mem _ hc', hmem⟩) hx

variable (sha256) in
theorem kept_after (ht : table.Lawful) (hfolds : ∀ p, Storable history p → Folds table p)
    (hbefore : before <+: history) :
    (after table sha256 before).Kept table (Storable history) := by
  apply Kept.after ht hfolds
  · constructor <;> simp
  · intro p x hp hx
    obtain ⟨c, hc, hmem⟩ := List.mem_flatMap.mp hp
    exact ⟨List.mem_flatMap.mpr ⟨c, hbefore.subset hc, hmem⟩, x, hx⟩

end Histories

end Store

/-- Every layer names the files of a history alike exactly when the two rules fold its names
alike. -/
theorem allAlike_iff {table : CaseTable} (ht : table.Lawful) (sha256 : Content → Digest)
    (history : List Command) : AllAlike table sha256 history ↔ FoldedAlike table history := by
  constructor
  · intro h
    have hstored : ∀ p, Storable history p → Folds table p := by
      rintro p ⟨hp, x, hx⟩
      exact (folds_iff_path_row ht hx).mpr (h.readBack p x hp hx)
    refine ⟨hstored, ?_⟩
    intro p q hp hq hrow
    obtain ⟨x, hx⟩ := hp.2
    exact (namedAlike_iff ht hx (hstored p hp)).mp (h.named p q hp (.inr hq)) hrow.symm
  · rintro ⟨hstored, hasked⟩
    have hused : ∀ p q, Storable history p → InUse history q →
        row table q = row table p → Folds table q := by
      rintro p q hp (hq | hq) hrow
      · exact hstored q hq
      · exact hasked p q hp hq hrow
    constructor
    · intro p q hp hq
      obtain ⟨x, hx⟩ := hp.2
      exact (namedAlike_iff ht hx (hstored p hp)).mpr fun hrow => hused p q hp hq hrow.symm
    · intro p x hp hx
      exact (folds_iff_path_row ht hx).mp (hstored p ⟨hp, x, hx⟩)
    · intro before hbefore k
      obtain ⟨s, hs, -, hgone⟩ := (Store.kept_after sha256 ht hstored hbefore).purge k
      exact ⟨s, hs, hgone⟩
    · intro before hbefore q hq owner hfind
      have hkept := Store.kept_after sha256 ht hstored hbefore
      obtain ⟨p, hp, hrow⟩ := hkept.pushed _ (Store.mem_of_findSymbol hfind)
      exact hkept.served (hused p q hp hq hrow.symm) hfind

def sampleVersion : VersionKey := ⟨"lib", "1.0.0"⟩

def samplePush (name : Text) : Command := .push sampleVersion [⟨fun _ => 0, name, [1]⟩] {}

/-- A name in ASCII is found in any case. -/
theorem allAlike_ascii : AllAlike .latin1 (fun _ => "")
    [samplePush ['A', '.', 'p', 'd', 'b'],
      .request ⟨List.replicate 32 '0' ++ List.replicate 8 'f', ['A', '.', 'P', 'd', 'b']⟩] := by
  apply (allAlike_iff CaseTable.lawful_latin1 _ _).mpr
  constructor
  · rintro p ⟨hp, -⟩
    obtain rfl : p = (⟨fun _ => 0, ['A', '.', 'p', 'd', 'b'], [1]⟩ : Pdb).name := by
      simpa [pushedNames, samplePush] using hp
    decide +kernel
  · intro p q hp hq _
    obtain rfl : q = ⟨List.replicate 32 '0' ++ List.replicate 8 'f', ['A', '.', 'P', 'd', 'b']⟩ := by
      simpa [askedNames, samplePush] using hq
    decide +kernel

/-- A purge forgets the row of `Ä.pdb` and leaves its file. -/
theorem umlaut_leaks : ¬ AllAlike .latin1 (fun _ => "") [samplePush ['Ä', '.', 'p', 'd', 'b']] := by
  intro h
  obtain ⟨s, hs, hgone⟩ := h.purged _ List.prefix_rfl sampleVersion
  have hleft : (((Store.after .latin1 (fun _ => "")
      [samplePush ['Ä', '.', 'p', 'd', 'b']]).purgeSymbols sampleVersion).1.files
        ⟨List.replicate 32 '0' ++ List.replicate 8 'f', ['Ä', '.', 'p', 'd', 'b']⟩).map
          StoredFile.owner = some sampleVersion := by decide +kernel
  rw [hs] at hleft
  obtain ⟨file, hfile, howner⟩ := Option.map_eq_some_iff.mp hleft
  exact hgone _ file hfile howner

end YaNuget.SymbolNames
