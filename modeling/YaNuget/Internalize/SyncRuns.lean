import YaNuget.Data.Outcomes
import YaNuget.Internalize.Sync

/-!
# What syncs remember

A version that a sync recorded as pushed stays in the state as pending or
approved, until pruning drops it. So it is pushed again only where it was
dropped, and becomes the newest version again.
-/
namespace YaNuget.Internalize

open Versions Versions.NuGetVersion Outcomes

section Keys

variable {a b c : Key}

theorem SameKey.refl (a : Key) : SameKey a a := ⟨rfl, cmp_eq_eq.mpr ⟨rfl, rfl⟩⟩

theorem SameKey.symm (h : SameKey a b) : SameKey b a := by
  obtain ⟨hcore, hpre⟩ := cmp_eq_eq.mp h.2
  exact ⟨h.1.symm, cmp_eq_eq.mpr ⟨hcore.symm, hpre.symm⟩⟩

theorem SameKey.trans (h : SameKey a b) (h' : SameKey b c) : SameKey a c := by
  obtain ⟨hcore, hpre⟩ := cmp_eq_eq.mp h.2
  obtain ⟨hcore', hpre'⟩ := cmp_eq_eq.mp h'.2
  exact ⟨h.1.trans h'.1, cmp_eq_eq.mpr ⟨hcore.trans hcore', hpre.trans hpre'⟩⟩

end Keys

/-- A version that was recorded as pushed, by the key of any of its spellings. -/
def Pushed (pushed : List Key) (k : Key) : Prop := ∃ k' ∈ pushed, SameKey k' k

def State.Has (s : State) (k : Key) : Prop := ∃ e ∈ s, SameKey e.key k

/-- What the state says of the versions that were recorded as pushed. -/
def Remembered (pushed : List Key) (s : State) : Prop :=
  ∀ e ∈ s, Pushed pushed e.key → e.status = .pending ∨ e.status = .approved

/-- No version that an earlier run recorded as pushed is handed to the pipeline. -/
def NoneAgain (pushed : List Key) (p : Progress) : Prop :=
  ∀ info ∈ p.calls, ¬Pushed pushed (keyOf info.id info.version)

/-- A version that was recorded as pushed, and is the newest of a watch entry in this run, is in
the state or served by the feed. -/
def Recalls (o : Overrides) (watch : List Watch) (pushed : List Key) (file : State)
    (r : SyncRun) : Prop :=
  r.dryRun = false → ∀ id ∈ idsOf watch, ∀ listing, r.upstream id = .ok listing → ∀ w ∈ watch,
    Text.lower w.id = Text.lower id → ∀ info, w.newest listing.versions = some info →
      o.skips info.id info.version = none → Pushed pushed (keyOf info.id info.version) →
        file.get info.id info.version = none →
          ∃ feed served, r.feed = some feed ∧ feed id = .ok (some served) ∧
            ∃ v ∈ served, v.cmp info.version = .eq

/-- Every run recalls what the runs before it recorded. -/
def AllRecall (o : Overrides) (watch : List Watch) : List Key → State → List SyncRun → Prop
  | _, _, [] => True
  | pushed, file, r :: rest => Recalls o watch pushed file r ∧
      AllRecall o watch (pushed ++ (ended o r watch file).pushed) (ended o r watch file).file rest

section States

variable {s : State} {e e' : Entry} {pushed : List Key} {k : Key}

theorem State.mem_insert : e' ∈ s.insert e ↔ e' = e ∨ e' ∈ s ∧ ¬SameKey e'.key e.key := by
  simp [State.insert]

theorem State.Has.insert (h : s.Has k) : (s.insert e).Has k := by
  obtain ⟨e', he', hk⟩ := h
  by_cases hsame : SameKey e'.key e.key
  · exact ⟨e, State.mem_insert.mpr (Or.inl rfl), hsame.symm.trans hk⟩
  · exact ⟨e', State.mem_insert.mpr (Or.inr ⟨he', hsame⟩), hk⟩

/-- Approving keeps the keys, and the states but for those that become approved. -/
theorem State.mem_approve {id now : Text} {served : List Versions.NuGetVersion}
    (h : e ∈ s.approve id served now) :
    ∃ e' ∈ s, e'.key = e.key ∧ (e.status = .approved ∨ e = e') := by
  obtain ⟨e', he', rfl⟩ := List.mem_map.mp h
  refine ⟨e', he', ?_, ?_⟩ <;> split
  · rfl
  · rfl
  · exact Or.inl rfl
  · exact Or.inr rfl

theorem State.Has.approve {id now : Text} {served : List Versions.NuGetVersion} (h : s.Has k) :
    (s.approve id served now).Has k := by
  obtain ⟨e, he, hk⟩ := h
  refine ⟨_, List.mem_map_of_mem he, ?_⟩
  split <;> exact hk

theorem State.get_eq_none {id : Text} {version : Versions.NuGetVersion} :
    s.get id version = none ↔ ¬s.Has (keyOf id version) := by
  simp [State.get, State.Has, List.find?_eq_none]

theorem State.of_get {id : Text} {version : Versions.NuGetVersion}
    (h : s.get id version = some e) : e ∈ s ∧ SameKey e.key (keyOf id version) :=
  ⟨List.mem_of_find?_eq_some h, by simpa using List.find?_some h⟩

theorem Remembered.subset {s' : State} (h : Remembered pushed s) (hs : ∀ e ∈ s', e ∈ s) :
    Remembered pushed s' := fun e he => h e (hs e he)

theorem Remembered.approve {id now : Text} {served : List Versions.NuGetVersion}
    (h : Remembered pushed s) : Remembered pushed (s.approve id served now) := by
  intro e he hpushed
  obtain ⟨e', he', hkey, happroved | rfl⟩ := State.mem_approve he
  · exact Or.inr happroved
  · exact h e he' hpushed

theorem Remembered.insert (h : Remembered pushed s)
    (he : Pushed pushed e.key → e.status = .pending ∨ e.status = .approved) :
    Remembered pushed (s.insert e) := by
  intro e' he'
  rcases State.mem_insert.mp he' with rfl | ⟨he', -⟩
  · exact he
  · exact h e' he'

theorem prune_subset {o : Overrides} {watch : List Watch} : ∀ e ∈ prune o watch s, e ∈ s := by
  intro e he
  unfold prune at he
  simp only [List.mem_filter] at he
  exact he.1.1

end States

/-- What one run keeps, given what was recorded before it and the state file it started from. -/
structure Keeps (earlier : List Key) (start : State) (p : Progress) : Prop where
  state : Remembered (earlier ++ p.pushed) p.state
  file : Remembered (earlier ++ p.pushed) p.file
  kept : ∀ k, start.Has k → p.state.Has k
  noneAgain : NoneAgain earlier p
  handled : ∀ k ∈ p.pushed, ∃ k' ∈ p.handled, SameKey k' k

/-- What holds however a run ends. -/
def Leaves (earlier : List Key) (p : Progress) : Prop :=
  Remembered (earlier ++ p.pushed) p.file ∧ NoneAgain earlier p

section OneRun

variable {o : Overrides} {r : SyncRun} {watch : List Watch} {earlier : List Key} {file : State}
  {p : Progress} {w : Watch} {id : Text} {served : Option (List Versions.NuGetVersion)}

theorem Keeps.leaves (h : Keeps earlier file p) : Leaves earlier p := ⟨h.file, h.noneAgain⟩

theorem Keeps.say (h : Keeps earlier file p) {version : Option Versions.NuGetVersion}
    {action : Action} {reasons : List String} : Keeps earlier file (p.say w version action reasons) :=
  ⟨h.state, h.file, h.kept, h.noneAgain, h.handled⟩

theorem Keeps.settle {info : PackageInfo} {servedNow : Bool} {entry : Option Entry}
    (h : Keeps earlier file p) : Keeps earlier file (settle r w info servedNow entry p) := by
  unfold Internalize.settle
  split
  · apply Keeps.say
    split
    · exact ⟨h.state.insert fun _ => Or.inr rfl, h.file, fun k hk => (h.kept k hk).insert,
        h.noneAgain, h.handled⟩
    · exact h
  · cases entry with
    | none => exact h
    | some e =>
      simp only
      split <;> exact h.say

theorem save_of_saved (p : Progress) (hdry : r.dryRun = false) :
    Ends (fun p' => p' = { p with file := p.state, saved := p.saved + 1 })
      (fun p' => p' = { p with saved := p.saved + 1 }) (save r p) := by
  unfold save
  rw [hdry]
  cases r.saves p.saved <;> rfl

/-- A version that was not recorded before is pushed and recorded. -/
theorem internalizeNow_ends {info : PackageInfo} {entry : Option Entry} (hdry : r.dryRun = false)
    (h : Keeps earlier file p) (hnew : ¬Pushed (earlier ++ p.pushed) (keyOf info.id info.version))
    (hhandled : ∃ k ∈ p.handled, SameKey k (keyOf info.id info.version)) :
    Ends (Keeps earlier file) (Leaves earlier) (internalizeNow o r w info entry p) := by
  have hnone : NoneAgain earlier { p with calls := p.calls ++ [info] } := by
    intro info' hinfo'
    rcases List.mem_append.mp hinfo' with hinfo' | hinfo'
    · exact h.noneAgain info' hinfo'
    · obtain rfl := List.mem_singleton.mp hinfo'
      rintro ⟨k, hk, hsame⟩
      exact hnew ⟨k, List.mem_append_left _ hk, hsame⟩
  unfold internalizeNow
  simp only
  cases r.internalize p.calls.length with
  | none => exact ⟨h.file, hnone⟩
  | some answer =>
    simp only
    generalize hentry : (⟨info.id, info.version, (judge answer).1, r.now, _, _, _⟩ : Entry) = e
    have hkey : e.key = keyOf info.id info.version := by
      rw [← hentry]
      rfl
    have hstate : Remembered (earlier ++ p.pushed) (p.state.insert e) :=
      h.state.insert fun hpushed => (hnew (hkey ▸ hpushed)).elim
    have hkept (k : Key) (hk : file.Has k) : (p.state.insert e).Has k := (h.kept k hk).insert
    generalize hcalled : ({ p with
      calls := p.calls ++ [info], state := p.state.insert e } : Progress) = called
    have hsave := save_of_saved called hdry
    cases hsaved : save r called with
    | error p' =>
      rw [hsaved] at hsave
      obtain rfl : p' = _ := hsave
      rw [← hcalled]
      exact ⟨h.file, hnone⟩
    | ok p' =>
      rw [hsaved] at hsave
      obtain rfl : p' = _ := hsave
      rw [← hcalled]
      apply Keeps.say
      split
      next hpending =>
        have hpushed : Remembered (earlier ++ (p.pushed ++ [e.key])) (p.state.insert e) := by
          intro e' he' hpushed'
          by_cases hsame : SameKey e'.key e.key
          · rcases State.mem_insert.mp he' with rfl | ⟨-, hne⟩
            · exact Or.inl (hentry ▸ hpending)
            · exact (hne hsame).elim
          · apply hstate e' he'
            obtain ⟨k, hk, hk'⟩ := hpushed'
            rw [← List.append_assoc, List.mem_append, List.mem_singleton] at hk
            rcases hk with hk | rfl
            · exact ⟨k, hk, hk'⟩
            · exact (hsame hk'.symm).elim
        refine ⟨hpushed, hpushed, hkept, hnone, fun k hk => ?_⟩
        rcases List.mem_append.mp hk with hk | hk
        · exact h.handled k hk
        · obtain rfl := List.mem_singleton.mp hk
          exact hkey ▸ hhandled
      · exact ⟨hstate, hstate, hkept, hnone, h.handled⟩

theorem keyOf_congr {a b : Text} (h : Text.lower a = Text.lower b)
    (version : Versions.NuGetVersion) : keyOf a version = keyOf b version := Prod.ext h rfl

theorem State.get_congr {s : State} {a b : Text} (h : Text.lower a = Text.lower b)
    (version : Versions.NuGetVersion) : s.get a version = s.get b version := by
  rw [State.get, State.get, keyOf_congr h]

/-- What is in the state as pushed is not tried again. -/
theorem retries_eq_false {e : Entry} {servedNow : Bool}
    (h : e.status = .pending ∨ e.status = .approved) : retries o servedNow (some e) = false := by
  unfold retries
  split
  · rfl
  · rcases h with h | h <;> simp [h]

theorem syncEntry_ends {listing : Listing id} (hrecalls : Recalls o watch earlier file r)
    (hid : id ∈ idsOf watch) (hlisting : r.upstream id = .ok listing) (hw : w ∈ watch)
    (hwid : Text.lower w.id = Text.lower id)
    (hserved : ∀ feed versions, r.feed = some feed → feed id = .ok (some versions) →
      served = some versions) (h : Keeps earlier file p) :
    Ends (Keeps earlier file) (Leaves earlier)
      (syncEntry o r id listing.versions served p w) := by
  unfold syncEntry
  cases hnewest : w.newest listing.versions with
  | none => exact h.say
  | some info =>
    have hinfo : info ∈ listing.versions := by
      unfold Watch.newest at hnewest
      simpa using List.mem_of_find?_eq_some hnewest
    have hkey := keyOf_congr (listing.own info hinfo) info.version
    simp only
    split
    · exact h
    next hhandled =>
    have h' : Keeps earlier file { p with handled := keyOf id info.version :: p.handled } :=
      ⟨h.state, h.file, h.kept, h.noneAgain, fun k hk =>
        (h.handled k hk).imp fun _ hk' => ⟨List.mem_cons_of_mem _ hk'.1, hk'.2⟩⟩
    cases hskips : o.skips info.id info.version with
    | some why => exact h'.say
    | none =>
      simp only
      split
      · exact h'.settle
      next hretries =>
      split
      · exact h'.say
      next hdry =>
      simp only [Bool.not_eq_true', Bool.not_eq_false] at hretries
      have hdry' : r.dryRun = false := by simpa using hdry
      refine internalizeNow_ends hdry' h' ?_ ⟨_, List.mem_cons_self, hkey ▸ SameKey.refl _⟩
      rintro ⟨k, hk, hsame⟩
      rcases List.mem_append.mp hk with hk | hk
      · have hpushed : Pushed earlier (keyOf info.id info.version) := ⟨k, hk, hsame⟩
        by_cases hhas : file.Has (keyOf id info.version)
        · obtain ⟨e, hget⟩ := Option.ne_none_iff_exists'.mp fun hnone =>
            State.get_eq_none.mp hnone (h.kept _ hhas)
          obtain ⟨he, hesame⟩ := State.of_get hget
          have hstatus := h.state e he
            ⟨k, List.mem_append_left _ hk, hsame.trans (hkey ▸ hesame.symm)⟩
          rw [hget, retries_eq_false hstatus] at hretries
          simp at hretries
        · have hnone : file.get info.id info.version = none := by
            rw [State.get_congr (listing.own info hinfo)]
            exact State.get_eq_none.mpr hhas
          obtain ⟨feed, versions, hfeed, hversions, v, hv, hcmp⟩ :=
            hrecalls hdry' id hid listing hlisting w hw hwid info hnewest hskips hpushed hnone
          have hnow : (served.any (·.any (·.cmp info.version = .eq))) = true := by
            rw [hserved feed versions hfeed hversions]
            simpa using ⟨v, hv, hcmp⟩
          rw [hnow] at hretries
          simp [retries] at hretries
      · obtain ⟨k', hk', hsame'⟩ := h.handled k hk
        apply hhandled
        rw [List.any_eq_true]
        exact ⟨k', hk', by simpa using hsame'.trans (hkey ▸ hsame)⟩

theorem servedOf_spec (r : SyncRun) (id : Text) (h : Keeps earlier file p) : Keeps earlier file (servedOf r id p).2 ∧
    ∀ feed versions, r.feed = some feed → feed id = .ok (some versions) →
      (servedOf r id p).1 = some versions := by
  unfold servedOf
  cases r.feed with
  | none => exact ⟨h, by simp⟩
  | some feed =>
    simp only
    split
    next versions hversions =>
      refine ⟨h, fun feed' versions' hfeed hversions' => ?_⟩
      obtain rfl := Option.some.inj hfeed
      rw [hversions] at hversions'
      exact Except.ok.inj hversions'
    next hnone =>
      refine ⟨⟨h.state, h.file, h.kept, h.noneAgain, h.handled⟩, fun feed' versions' hfeed hv => ?_⟩
      obtain rfl := Option.some.inj hfeed
      simp [hnone] at hv
    next hnone =>
      refine ⟨⟨h.state, h.file, h.kept, h.noneAgain, h.handled⟩, fun feed' versions' hfeed hv => ?_⟩
      obtain rfl := Option.some.inj hfeed
      simp [hnone] at hv

theorem syncId_ends (hrecalls : Recalls o watch earlier file r) (hid : id ∈ idsOf watch)
    (h : Keeps earlier file p) :
    Ends (Keeps earlier file) (Leaves earlier) (syncId o r watch p id) := by
  unfold syncId
  simp only
  split
  · have fold (ws : List Watch) (p : Progress) (h : Keeps earlier file p) (message : String) :
        Keeps earlier file (ws.foldl (fun p w => p.say w none (.error message) []) p) := by
      induction ws generalizing p with
      | nil => exact h
      | cons w ws ih => exact ih _ h.say
    exact fold _ _ h _
  next listing hlisting =>
    obtain ⟨h', hserved⟩ := servedOf_spec r id h
    refine Ends.foldlM ?_ fun p' w hw hp' => ?_
    · split
      · exact ⟨h'.state.approve, h'.file, fun k hk => (h'.kept k hk).approve, h'.noneAgain,
          h'.handled⟩
      · exact h'
    · simp only [List.mem_filter, decide_eq_true_eq] at hw
      exact syncEntry_ends hrecalls hid hlisting hw.1 hw.2 hserved hp'

/-- However a run ends, it keeps what was recorded, and hands none of it to the pipeline. -/
theorem ended_leaves (hrecalls : Recalls o watch earlier file r) (h : Remembered earlier file) :
    Leaves earlier (ended o r watch file) := by
  have hstart : Keeps earlier file { state := file, file := file } := by
    have h' : Remembered (earlier ++ []) file := by simpa using h
    exact ⟨h', h', fun _ hk => hk, by simp [NoneAgain], by simp⟩
  have hsync : Ends (Leaves earlier) (Leaves earlier) (sync o r watch file) := by
    unfold sync
    refine Ends.bind (Ends.foldlM hstart fun p id hid hp => syncId_ends hrecalls hid hp) ?_
    intro p hp
    refine Ends.bind (P := Leaves earlier) ?_ fun p' hp' => ?_
    · unfold save
      split
      · exact hp.leaves
      · split
        · exact ⟨hp.state.subset prune_subset, hp.noneAgain⟩
        · exact hp.leaves
    · change Leaves earlier _
      split
      · exact hp'
      · exact hp'
  unfold ended
  split
  next p hp =>
    rw [hp] at hsync
    exact hsync
  next p hp =>
    rw [hp] at hsync
    exact hsync

end OneRun

/-- A version that a run recorded as pushed is handed to the pipeline in no later run, as long as
every run recalls what was recorded before it. -/
theorem pushed_once (o : Overrides) (watch : List Watch) (file : State) (runs : List SyncRun)
    (h : AllRecall o watch [] file runs) : (syncs o watch file runs).Pairwise fun p q =>
      ∀ k ∈ p.pushed, ∀ info ∈ q.calls, ¬SameKey k (keyOf info.id info.version) := by
  have run (pushed : List Key) (file : State) (runs : List SyncRun)
      (h : AllRecall o watch pushed file runs) (hfile : Remembered pushed file) :
      (∀ p ∈ syncs o watch file runs, NoneAgain pushed p) ∧
        (syncs o watch file runs).Pairwise fun p q =>
          ∀ k ∈ p.pushed, ∀ info ∈ q.calls, ¬SameKey k (keyOf info.id info.version) := by
    induction runs generalizing pushed file with
    | nil => exact ⟨by simp [syncs], List.Pairwise.nil⟩
    | cons r rest ih =>
      obtain ⟨hrecalls, hrest⟩ := h
      obtain ⟨hfile', hnone⟩ := ended_leaves hrecalls hfile
      obtain ⟨hlater, hpairs⟩ := ih _ _ hrest hfile'
      rw [syncs]
      constructor
      · rw [List.forall_mem_cons]
        refine ⟨hnone, fun p hp info hinfo hpushed => hlater p hp info hinfo ?_⟩
        obtain ⟨k, hk, hsame⟩ := hpushed
        exact ⟨k, List.mem_append_left _ hk, hsame⟩
      · refine List.pairwise_cons.mpr ⟨fun q hq k hk info hinfo hsame => ?_, hpairs⟩
        exact hlater q hq info hinfo ⟨k, List.mem_append_right _ hk, hsame⟩
  refine (run [] file runs h ?_).2
  rintro e - ⟨k, hk, -⟩
  simp at hk

/-! Samples: syncs of one package, which the pipeline always pushes. -/

def sampleVersion (major : ℕ) : Versions.NuGetVersion := ⟨major, 0, 0, 0, [], none, []⟩

def sampleOverrides : Overrides := ⟨[], []⟩

def sampleWatch : Watch := ⟨"git".toList, none⟩

/-- The upstream has the versions, each listed or not, and the feed serves some. -/
def sampleSync (versions : List (ℕ × Bool)) (served : List ℕ) : SyncRun where
  dryRun := false
  now := []
  upstream id := .ok
    ⟨versions.map fun (major, listed) => ⟨id, sampleVersion major, listed, none, none⟩, by
      intro info hinfo
      obtain ⟨v, -, rfl⟩ := List.mem_map.mp hinfo
      rfl⟩
  feed := some fun _ => .ok (some (served.map sampleVersion))
  internalize _ := some (.ok [⟨"git".toList, [], .internalized, []⟩])
  saves _ := true

/-- The first version is pushed, and still waits for its approval in the second run. -/
theorem pushed_once_sample :
    let runs := [sampleSync [(1, true)] [], sampleSync [(1, true)] []]
    (syncs sampleOverrides [sampleWatch] [] runs).map (·.pushed) =
        [[("git".toList, sampleVersion 1)], []] ∧
      (syncs sampleOverrides [sampleWatch] [] runs).Pairwise fun p q =>
        ∀ k ∈ p.pushed, ∀ info ∈ q.calls, ¬SameKey k (keyOf info.id info.version) := by
  refine ⟨by decide +kernel, pushed_once _ _ _ _ ⟨?_, ?_, trivial⟩⟩
  · rintro - id - listing - w - - info - - ⟨k, hk, -⟩
    simp at hk
  · rintro - id hid listing hlisting w hw - info hnewest - - hnone
    have hids : idsOf [sampleWatch] = ["git".toList] := by decide +kernel
    rw [hids, List.mem_singleton] at hid
    obtain rfl := hid
    obtain rfl := Except.ok.inj hlisting
    obtain rfl := List.mem_singleton.mp hw
    have hinfo : sampleWatch.newest [⟨"git".toList, sampleVersion 1, true, none, none⟩] =
        some ⟨"git".toList, sampleVersion 1, true, none, none⟩ := by
      decide +kernel
    obtain rfl := Option.some.inj (hinfo.symm.trans hnewest)
    have hsome : ((ended sampleOverrides (sampleSync [(1, true)] []) [sampleWatch] []).file.get
        "git".toList (sampleVersion 1)).isSome := by
      decide +kernel
    rw [hnone] at hsome
    simp at hsome

/-- The first version is pruned once the second one is approved, and pushed again once the second
one is no longer listed. -/
theorem pruned_version_pushed_again :
    ¬(syncs sampleOverrides [sampleWatch] [] [sampleSync [(1, true)] [],
      sampleSync [(1, true), (2, true)] [2], sampleSync [(1, true), (2, false)] [2]]).Pairwise
        fun p q => ∀ k ∈ p.pushed, ∀ k' ∈ q.pushed, ¬SameKey k k' := by
  intro h
  have hpushed : (syncs sampleOverrides [sampleWatch] [] [sampleSync [(1, true)] [],
      sampleSync [(1, true), (2, true)] [2], sampleSync [(1, true), (2, false)] [2]]).map
        (·.pushed) = [[("git".toList, sampleVersion 1)], [], [("git".toList, sampleVersion 1)]] := by
    decide +kernel
  have hpairs := (List.pairwise_map (f := Progress.pushed)
    (R := fun ks ks' => ∀ k ∈ ks, ∀ k' ∈ ks', ¬SameKey k k')).mpr h
  rw [hpushed] at hpairs
  have hfirst := (List.pairwise_cons.mp hpairs).1 _ (List.mem_cons_of_mem _ List.mem_cons_self)
  exact hfirst _ List.mem_cons_self _ List.mem_cons_self (SameKey.refl _)

end YaNuget.Internalize
