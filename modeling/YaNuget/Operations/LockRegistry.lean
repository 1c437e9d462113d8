import YaNuget.Data.Runs
import YaNuget.Data.Table
import YaNuget.Listings.PageUrls

/-!
# The registry of locks

A lock is found by its key in a map of weak references, and made when no live
one is there. The map is changed by one task at a time, while others drop what
they hold of its locks. Entries whose lock nobody holds or waits for are swept
when the map has grown.
-/
namespace YaNuget.Locks

/-- A task's reference to a lock: it waits for the lock, or holds its guard. -/
structure Reference where
  mutex : ℕ
  guard : Bool := false
  deriving DecidableEq, Repr

/-- What the task that has the map to itself has still to do. -/
inductive Pass where
  /-- Entries not yet looked at by the sweep. -/
  | sweep (key : Text) (left : List Text)
  | look (key : Text)
  deriving DecidableEq, Repr

structure Registry where
  map : Table Text ℕ := .empty
  sweepAt : ℕ := 0

/-- The registry with the locks it made, by the key each was made for, and the references given
out, `none` once dropped. -/
structure State where
  registry : Registry := {}
  pass : Option Pass := none
  created : List Text := []
  refs : List (Option Reference) := []

inductive Action where
  /-- Take the map to look for a key, its entries met in this order by a sweep. -/
  | enter (key : Text) (order : List Text)
  /-- Look at the next entry of the sweep. -/
  | visit
  /-- The sweep has seen every entry. -/
  | swept
  | look
  /-- The lock is given to one that waits for it. -/
  | lock (ref : ℕ)
  /-- Drop a guard, or give up waiting. -/
  | drop (ref : ℕ)
  deriving DecidableEq, Repr

namespace State

def strongCount (s : State) (m : ℕ) : ℕ := s.refs.countP fun r => r.any (·.mutex = m)

/-- Whether a weak reference is to a lock that is still there. -/
def upgrade (s : State) (m : ℕ) : Option ℕ := if 0 < s.strongCount m then some m else none

def locked (s : State) (m : ℕ) : Bool := s.refs.any fun r => r = some ⟨m, true⟩

/-- Keep the entry of a key if its lock is still there. -/
def retain (s : State) (key : Text) : Table Text ℕ :=
  match s.registry.map.row key with
  | some m => if 0 < s.strongCount m then s.registry.map else s.registry.map.erase key
  | none => s.registry.map

/-- Give out the lock of a key, made if no live one is there. -/
def give (s : State) (key : Text) : State :=
  match (s.registry.map.row key).bind s.upgrade with
  | some m => { s with pass := none, refs := s.refs ++ [some ⟨m, false⟩] }
  | none =>
    { registry := { s.registry with map := s.registry.map.insert key s.created.length }
      pass := none
      created := s.created ++ [key]
      refs := s.refs ++ [some ⟨s.created.length, false⟩] }

/-- The next state, if the action is possible. -/
def step (s : State) : Action → Option State
  | .enter key order =>
    if s.pass = none ∧ order.Nodup ∧ order.toFinset = s.registry.map.keys then
      if s.registry.sweepAt ≤ s.registry.map.len then
        some { s with pass := some (.sweep key order) }
      else some { s with pass := some (.look key) }
    else none
  | .visit =>
    match s.pass with
    | some (.sweep key (k :: left)) =>
      some { s with
        registry := { s.registry with map := s.retain k }
        pass := some (.sweep key left) }
    | _ => none
  | .swept =>
    match s.pass with
    | some (.sweep key []) =>
      some { s with
        registry := { s.registry with sweepAt := s.registry.map.len * 2 + 16 }
        pass := some (.look key) }
    | _ => none
  | .look =>
    match s.pass with
    | some (.look key) => some (s.give key)
    | _ => none
  | .lock i =>
    match s.refs[i]? with
    | some (some ⟨m, false⟩) =>
      if s.locked m then none else some { s with refs := s.refs.set i (some ⟨m, true⟩) }
    | _ => none
  | .drop i =>
    match s.refs[i]? with
    | some (some _) => some { s with refs := s.refs.set i none }
    | _ => none

/-- A lock that a task holds or waits for. -/
def Live (s : State) (m : ℕ) : Prop := ∃ r : Reference, some r ∈ s.refs ∧ r.mutex = m

theorem strongCount_pos (s : State) (m : ℕ) : 0 < s.strongCount m ↔ s.Live m := by
  rw [strongCount, List.countP_pos_iff]
  constructor
  · rintro ⟨r, hr, hm⟩
    cases r with
    | none => simp at hm
    | some r => exact ⟨r, hr, by simpa using hm⟩
  · rintro ⟨r, hr, hm⟩
    exact ⟨some r, hr, by simpa using hm⟩

/-- Every lock is entered under the key it was made for, and a live one has its entry. -/
structure Entered (s : State) : Prop where
  entries : ∀ k m, s.registry.map.row k = some m → s.created[m]? = some k
  live : ∀ m, s.Live m → ∃ k, s.created[m]? = some k ∧ s.registry.map.row k = some m

/-- A lock has one guard at most. -/
def Guarded (s : State) : Prop :=
  ∀ i j m : ℕ, s.refs[i]? = some (some ⟨m, true⟩) → s.refs[j]? = some (some ⟨m, true⟩) → i = j

theorem Entered.unique {s : State} (hs : s.Entered) {m m' : ℕ} (hm : s.Live m) (hm' : s.Live m')
    (h : s.created[m]? = s.created[m']?) : m = m' := by
  obtain ⟨k, hk, hrow⟩ := hs.live m hm
  obtain ⟨k', hk', hrow'⟩ := hs.live m' hm'
  have hkey : k = k' := Option.some.inj (hk.symm.trans (h.trans hk'))
  rw [← hkey, hrow] at hrow'
  exact Option.some.inj hrow'

section Steps

variable {s s' : State} {a : Action} {key : Text} {m : ℕ}

/-- What a step can do: leave the references alone and sweep one entry at most, give out a lock, give
a free lock to one that waits for it, or drop a reference. -/
theorem step_cases (h : s.step a = some s') :
    (s'.refs = s.refs ∧ s'.created = s.created ∧
      (s'.registry.map = s.registry.map ∨ ∃ key, s'.registry.map = s.retain key)) ∨
    (∃ key, s' = s.give key) ∨
    (∃ i m, s.refs[i]? = some (some ⟨m, false⟩) ∧ s.locked m = false ∧
      s' = { s with refs := s.refs.set i (some ⟨m, true⟩) }) ∨
    (∃ i, s' = { s with refs := s.refs.set i none }) := by
  cases a with
  | enter key order =>
    simp only [step] at h
    split at h
    · split at h <;> cases h <;> exact .inl ⟨rfl, rfl, .inl rfl⟩
    · cases h
  | visit =>
    simp only [step] at h
    split at h
    next key k left _ => cases h; exact .inl ⟨rfl, rfl, .inr ⟨k, rfl⟩⟩
    next => cases h
  | swept =>
    simp only [step] at h
    split at h
    next => cases h; exact .inl ⟨rfl, rfl, .inl rfl⟩
    next => cases h
  | look =>
    simp only [step] at h
    split at h
    next key _ => cases h; exact .inr (.inl ⟨key, rfl⟩)
    next => cases h
  | lock i =>
    simp only [step] at h
    split at h
    next m hi =>
      split at h
      · cases h
      next hfree => cases h; exact .inr (.inr (.inl ⟨i, m, hi, by simpa using hfree, rfl⟩))
    next => cases h
  | drop i =>
    simp only [step] at h
    split at h
    next => cases h; exact .inr (.inr (.inr ⟨i, rfl⟩))
    next => cases h

theorem upgrade_eq_some : s.upgrade m = some m ↔ s.Live m := by
  rw [← strongCount_pos, upgrade]
  split <;> simp_all

/-- A sweep takes away no entry of a live lock, and adds none. -/
theorem row_retain {k : Text} :
    ((s.retain key).row k = some m → s.registry.map.row k = some m) ∧
      (s.registry.map.row k = some m → s.Live m → (s.retain key).row k = some m) := by
  unfold retain
  split
  next m' hrow =>
    split
    next => exact ⟨id, fun h _ => h⟩
    next hdead =>
      rw [Table.row_erase]
      constructor
      · intro h
        split at h
        · cases h
        · exact h
      · intro h hlive
        have hne : k ≠ key := by
          rintro rfl
          obtain rfl : m' = m := Option.some.inj (hrow.symm.trans h)
          exact hdead (s.strongCount_pos m' |>.mpr hlive)
        rw [if_neg hne]
        exact h
  next => exact ⟨id, fun h _ => h⟩

theorem Live.of_refs {refs : List (Option Reference)} (h : ∀ r, some r ∈ refs →
    ∃ r' : Reference, some r' ∈ s.refs ∧ r'.mutex = r.mutex) (hm : State.Live { s with refs } m) :
    s.Live m := by
  obtain ⟨r, hr, rfl⟩ := hm
  exact h r hr

/-- A lock that is live after it is given out was live, or is the one given. -/
theorem live_give (h : (s.give key).Live m) :
    s.Live m ∨ (s.give key).registry.map.row key = some m := by
  obtain ⟨r, hr, rfl⟩ := h
  unfold give at hr ⊢
  split at hr
  next m' hfound =>
    rcases List.mem_append.mp hr with hr | hr
    · exact .inl ⟨r, hr, rfl⟩
    · obtain ⟨m'', hrow, hup⟩ := Option.bind_eq_some_iff.mp hfound
      have hm : m'' = m' := by
        unfold upgrade at hup
        split at hup
        · exact Option.some.inj hup
        · cases hup
      obtain rfl : r = ⟨m', false⟩ := by simpa using hr
      exact .inr (hm ▸ hrow)
  next =>
    rcases List.mem_append.mp hr with hr | hr
    · exact .inl ⟨r, hr, rfl⟩
    · obtain rfl : r = ⟨s.created.length, false⟩ := by simpa using hr
      exact .inr (by simp)

theorem Entered.give (hs : s.Entered) (key : Text) : (s.give key).Entered := by
  have hnew : ∀ m, (s.give key).Live m → s.Live m ∨ (s.give key).registry.map.row key = some m :=
    fun _ => live_give
  unfold State.give at hnew ⊢
  split at hnew
  next m hfound =>
    constructor
    · exact hs.entries
    · intro m' hm'
      rcases hnew m' hm' with hlive | hrow
      · exact hs.live m' hlive
      · exact ⟨key, hs.entries key m' hrow, hrow⟩
  next hnone =>
    have hkept : ∀ {k : Text} {m : ℕ}, s.created[m]? = some k →
        (s.created ++ [key])[m]? = some k := by
      intro k m hk
      rw [List.getElem?_append_left (List.getElem?_eq_some_iff.mp hk).1]
      exact hk
    constructor
    · intro k m hrow
      rw [Table.row_insert] at hrow
      split at hrow
      next hk =>
        obtain rfl := Option.some.inj hrow
        simp [hk]
      next => exact hkept (hs.entries k m hrow)
    · intro m hm
      rcases hnew m hm with hlive | hrow
      · obtain ⟨k, hk, hrow⟩ := hs.live m hlive
        have hne : k ≠ key := by
          rintro rfl
          simp [hrow, upgrade_eq_some.mpr hlive] at hnone
        refine ⟨k, hkept hk, ?_⟩
        rw [Table.row_insert, if_neg hne]
        exact hrow
      · rw [Table.row_insert, if_pos rfl] at hrow
        obtain rfl := Option.some.inj hrow
        exact ⟨key, by simp, by simp⟩

theorem Entered.of_refs (hs : s.Entered) {refs : List (Option Reference)}
    (h : ∀ r, some r ∈ refs → ∃ r' : Reference, some r' ∈ s.refs ∧ r'.mutex = r.mutex) :
    State.Entered { s with refs } where
  entries := hs.entries
  live m hm := hs.live m (Live.of_refs h hm)

theorem Entered.step (h : s.step a = some s') (hs : s.Entered) : s'.Entered := by
  obtain ⟨hrefs, hcreated, hmap⟩ | ⟨key, rfl⟩ | ⟨i, m, hi, -, rfl⟩ | ⟨i, rfl⟩ := step_cases h
  · have hrows : ∀ k m, (s'.registry.map.row k = some m → s.registry.map.row k = some m) ∧
        (s.registry.map.row k = some m → s.Live m → s'.registry.map.row k = some m) := by
      intro k m
      rcases hmap with hmap | ⟨key, hmap⟩
      · rw [hmap]
        exact ⟨id, fun h _ => h⟩
      · rw [hmap]
        exact row_retain
    constructor
    · intro k m hrow
      rw [hcreated]
      exact hs.entries k m ((hrows k m).1 hrow)
    · intro m hm
      have hlive : s.Live m := by
        unfold Live at hm ⊢
        rwa [hrefs] at hm
      obtain ⟨k, hk, hrow⟩ := hs.live m hlive
      exact ⟨k, hcreated ▸ hk, (hrows k m).2 hrow hlive⟩
  · exact hs.give key
  · apply hs.of_refs
    intro r hr
    rcases List.mem_or_eq_of_mem_set hr with hr | hr
    · exact ⟨r, hr, rfl⟩
    · obtain rfl := Option.some.inj hr
      exact ⟨_, List.mem_of_getElem? hi, rfl⟩
  · apply hs.of_refs
    intro r hr
    rcases List.mem_or_eq_of_mem_set hr with hr | hr
    · exact ⟨r, hr, rfl⟩
    · cases hr

/-- A guard is one that was there, unless a lock was given to one that waited for it. -/
theorem guard_step (h : s.step a = some s') {i : ℕ} (hi : s'.refs[i]? = some (some ⟨m, true⟩)) :
    s.refs[i]? = some (some ⟨m, true⟩) ∨
      s.refs[i]? = some (some ⟨m, false⟩) ∧ s.locked m = false ∧
        s'.refs = s.refs.set i (some ⟨m, true⟩) := by
  obtain ⟨hrefs, -, -⟩ | ⟨key, rfl⟩ | ⟨j, n, hj, hfree, rfl⟩ | ⟨j, rfl⟩ := step_cases h
  · exact .inl (hrefs ▸ hi)
  · have hgiven : ∃ n, (s.give key).refs = s.refs ++ [some ⟨n, false⟩] := by
      unfold give
      split
      next n _ => exact ⟨n, rfl⟩
      next => exact ⟨_, rfl⟩
    obtain ⟨n, hn⟩ := hgiven
    rw [hn, List.getElem?_append] at hi
    split at hi
    · exact .inl hi
    · rw [List.getElem?_singleton] at hi
      split at hi <;> simp at hi
  · simp only [List.getElem?_set] at hi
    split at hi
    next hij =>
      subst hij
      split at hi
      · obtain rfl : n = m := by simpa using hi
        exact .inr ⟨hj, hfree, rfl⟩
      · cases hi
    next => exact .inl hi
  · simp only [List.getElem?_set] at hi
    split at hi
    · split at hi <;> simp at hi
    · exact .inl hi

theorem Guarded.step (h : s.step a = some s') (hs : s.Guarded) : s'.Guarded := by
  have hlocked : ∀ {i m : ℕ}, s.refs[i]? = some (some ⟨m, true⟩) → s.locked m = true := by
    intro i m hi
    exact List.any_eq_true.mpr ⟨_, List.mem_of_getElem? hi, by simp⟩
  intro i j m hi hj
  rcases guard_step h hi with hold | ⟨hwait, hfree, hset⟩
  · rcases guard_step h hj with hold' | ⟨-, hfree, -⟩
    · exact hs i j m hold hold'
    · rw [hlocked hold] at hfree
      cases hfree
  · rw [hset, List.getElem?_set] at hj
    split at hj
    next hij => exact hij
    next =>
      rw [hlocked hj] at hfree
      cases hfree

/-- The lock that is given out for a key was made for it. -/
theorem give_created (hs : s.Entered) (key : Text) : ∃ m,
    (s.give key).refs = s.refs ++ [some ⟨m, false⟩] ∧ (s.give key).created[m]? = some key := by
  unfold give
  split
  next m hfound =>
    obtain ⟨m', hrow, hup⟩ := Option.bind_eq_some_iff.mp hfound
    unfold upgrade at hup
    split at hup
    · obtain rfl := Option.some.inj hup
      exact ⟨m', rfl, hs.entries key m' hrow⟩
    · cases hup
  next => exact ⟨_, rfl, by simp⟩

end Steps

section Runs

open Runs

variable {s : State}

theorem entered_of_reaches (h : Reaches step {} s) : s.Entered := by
  apply h.keeps (fun _ _ _ hstep hs => hs.step hstep)
  constructor
  · intro k m hrow
    cases hrow
  · rintro m ⟨r, hr, -⟩
    cases hr

theorem guarded_of_reaches (h : Reaches step {} s) : s.Guarded := by
  apply h.keeps (fun _ _ _ hstep hs => hs.step hstep)
  intro i j m hi
  cases hi

end Runs

end State

def symbolTag : Text := "symbol:".toList

def blobTag : Text := "blob:".toList

/-- What a lock is taken for. -/
inductive Subject where
  | version (id : Text) (version : Versions.NuGetVersion)
  | symbol (key filename : Text)
  | blob (sha256Hex : Text)

namespace Subject

def key : Subject → Text
  | version id v => Text.lower id ++ '/' :: Text.lower v.normalized
  | symbol key filename => symbolTag ++ (Internalize.upper key ++ '/' :: Text.lower filename)
  | blob sha256Hex => blobTag ++ Text.lower sha256Hex

/-- Ids of packages are valid, and keys of symbols have no slash. -/
def Valid : Subject → Prop
  | version id _ => Listings.validatePackageId id = .ok ()
  | symbol key _ => '/' ∉ key
  | blob _ => True

/-- The two name one thing. -/
def Same : Subject → Subject → Prop
  | version id v, version id' v' => Text.lower id = Text.lower id' ∧ v.normalized = v'.normalized
  | symbol key filename, symbol key' filename' =>
    Internalize.upper key = Internalize.upper key' ∧ Text.lower filename = Text.lower filename'
  | blob sha, blob sha' => Text.lower sha = Text.lower sha'
  | _, _ => False

section Keys

variable {id : Text} {a b : Subject}

theorem not_mem_lower_of_valid (h : Listings.validatePackageId id = .ok ()) {c : Char}
    (hc : Listings.isKept c = false) : c ∉ Text.lower id := by
  intro hmem
  have hlower := (Listings.validatePackageId_lower id).mpr h
  have hkept := Listings.isKept_of_validatePackageId hlower c hmem
  rw [hc] at hkept
  cases hkept

theorem slash_not_mem_upper {key : Text} (h : '/' ∉ key) : '/' ∉ Internalize.upper key := by
  intro hmem
  obtain ⟨c, hc, hupper⟩ := List.mem_map.mp hmem
  rcases Text.toUpper_cases c with ⟨h₁, h₂, h₃⟩ | ⟨-, heq⟩
  · have hslash : c.toUpper.toNat = 47 := by rw [hupper]; rfl
    omega
  · rw [← heq, hupper] at hc
    exact h hc

theorem split_eq {a a' b b' : Text} (ha : '/' ∉ a) (ha' : '/' ∉ a')
    (h : a ++ '/' :: b = a' ++ '/' :: b') : a = a' ∧ b = b' := by
  have hsplit := Text.splitOnce_append (b := b) ha
  rw [h, Text.splitOnce_append ha', Option.some.injEq, Prod.mk.injEq] at hsplit
  exact ⟨hsplit.1.symm, hsplit.2.symm⟩

/-- A key of a version begins with no tag: an id has no colon. -/
theorem not_tagged {tag a b rest : Text} (hcolon : ':' ∈ tag) (hslash : '/' ∉ tag) (ha : ':' ∉ a) :
    a ++ '/' :: b ≠ tag ++ rest := by
  intro h
  rcases List.append_eq_append_iff.mp h with ⟨as, htag, hrest⟩ | ⟨bs, htag, -⟩
  · cases as with
    | nil =>
      rw [List.append_nil] at htag
      exact ha (htag ▸ hcolon)
    | cons c as =>
      obtain ⟨rfl, -⟩ := List.cons.inj hrest
      exact hslash (htag ▸ by simp)
  · exact ha (htag ▸ List.mem_append_left _ hcolon)

theorem tags_differ (a b : Text) : symbolTag ++ a ≠ blobTag ++ b := by
  intro h
  have hhead := congrArg List.head? h
  rw [List.head?_append_of_ne_nil _ (by decide), List.head?_append_of_ne_nil _ (by decide)] at hhead
  revert hhead
  decide

/-- Two keys are equal exactly when they name one thing. -/
theorem key_eq_iff (ha : a.Valid) (hb : b.Valid) : a.key = b.key ↔ a.Same b := by
  have hversion : ∀ {id : Text}, Listings.validatePackageId id = .ok () →
      '/' ∉ Text.lower id ∧ ':' ∉ Text.lower id := fun h =>
    ⟨not_mem_lower_of_valid h (by decide), not_mem_lower_of_valid h (by decide)⟩
  have hsymbol : ':' ∈ symbolTag ∧ '/' ∉ symbolTag := by decide
  have hblob : ':' ∈ blobTag ∧ '/' ∉ blobTag := by decide
  cases a with
  | version id v =>
    cases b with
    | version id' v' =>
      simp only [key, Listings.NormalizedVersion.lower_normalized, Same]
      constructor
      · exact split_eq (hversion ha).1 (hversion hb).1
      · rintro ⟨hid, hv⟩
        rw [hid, hv]
    | symbol key filename =>
      exact iff_of_false (not_tagged hsymbol.1 hsymbol.2 (hversion ha).2) not_false
    | blob sha => exact iff_of_false (not_tagged hblob.1 hblob.2 (hversion ha).2) not_false
  | symbol key filename =>
    cases b with
    | version id v =>
      exact iff_of_false (not_tagged hsymbol.1 hsymbol.2 (hversion hb).2).symm not_false
    | symbol key' filename' =>
      simp only [Subject.key, Same, List.append_cancel_left_eq]
      constructor
      · exact split_eq (slash_not_mem_upper ha) (slash_not_mem_upper hb)
      · rintro ⟨hkey, hfile⟩
        rw [hkey, hfile]
    | blob sha => exact iff_of_false (tags_differ _ _) not_false
  | blob sha =>
    cases b with
    | version id v => exact iff_of_false (not_tagged hblob.1 hblob.2 (hversion hb).2).symm not_false
    | symbol key filename => exact iff_of_false (tags_differ _ _).symm not_false
    | blob sha' => simp only [key, Same, List.append_cancel_left_eq]

end Keys

end Subject

namespace State

open Runs

/-- However tasks take and drop locks and whenever the registry is swept, two live locks are never
for one key, a key has one guard at most, and what a task is given for a key is a lock of that
key. Keys are equal only where they name one thing. -/
theorem registry_exclusive :
    (∀ s, Reaches step {} s →
      (∀ m m', s.Live m → s.Live m' → s.created[m]? = s.created[m']? → m = m') ∧
      (∀ (i j : ℕ) (r r' : Reference), s.refs[i]? = some (some r) → s.refs[j]? = some (some r') →
        r.guard = true → r'.guard = true → s.created[r.mutex]? = s.created[r'.mutex]? → i = j) ∧
      ∀ key, ∃ m, (s.give key).refs = s.refs ++ [some ⟨m, false⟩] ∧
        (s.give key).created[m]? = some key) ∧
    ∀ a b : Subject, a.Valid → b.Valid → (a.key = b.key ↔ a.Same b) := by
  constructor
  · intro s hs
    have hentered := entered_of_reaches hs
    refine ⟨fun m m' hm hm' h => hentered.unique hm hm' h, ?_, give_created hentered⟩
    rintro i j ⟨m, _⟩ ⟨m', _⟩ hi hj rfl rfl h
    have hmutex : m = m' := hentered.unique ⟨_, List.mem_of_getElem? hi, rfl⟩
      ⟨_, List.mem_of_getElem? hj, rfl⟩ h
    subst hmutex
    exact guarded_of_reaches hs i j m hi hj
  · intro a b ha hb
    exact Subject.key_eq_iff ha hb

/-- One task holds the lock of a key and another waits for it. -/
theorem registry_exclusive_waiting :
    ∃ s, Reaches step {} s ∧ s.refs = [some ⟨0, true⟩, some ⟨0, false⟩] ∧
      (∀ m m', s.Live m → s.Live m' → s.created[m]? = s.created[m']? → m = m') ∧
      ((Subject.symbol ['a'] ['X']).key = (Subject.symbol ['A'] ['x']).key ↔
        (Subject.symbol ['a'] ['X']).Same (.symbol ['A'] ['x'])) := by
  have hrun : (run step {} [.enter ['k'] [], .swept, .look, .enter ['k'] [['k']], .look,
      .lock 0]).map (·.refs) = some [some ⟨0, true⟩, some ⟨0, false⟩] := by decide +kernel
  obtain ⟨s, hs, hrefs⟩ := Option.map_eq_some_iff.mp hrun
  have hreaches : Reaches step {} s := ⟨_, hs⟩
  refine ⟨s, hreaches, hrefs, (registry_exclusive.1 s hreaches).1, ?_⟩
  apply registry_exclusive.2
  · simp [Subject.Valid]
  · simp [Subject.Valid]

end State

end YaNuget.Locks
